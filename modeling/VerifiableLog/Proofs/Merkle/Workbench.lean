import Mathlib.Data.List.Infix
import Mathlib.Data.List.Induction
import VerifiableLog.Proofs.Merkle.Shape

/-!
A tree on the workbench. It is extended, plans are made of it, any plan that was ever made is
applied to it, and it is replaced by trees that are rebuilt from nodes, in any order and as often as
is wished. Every act is also told with each lookup checked. A run in which a lookup could fail goes
the same way as one in which none can, and what it leaves is a tree that answers.
-/

namespace VerifiableLog.Merkle

namespace Accumulator

/-! ### Checked lookups -/

/-- Plans an append with each left sibling looked for; nothing if one is not there. -/
def plan? (tree : Accumulator) (leaves : List Digest) : Option AppendPlan :=
  (tree.climbAll? [] tree.size leaves).map fun nodes => ⟨tree.size, leaves.length, nodes⟩

/-- Inserts nodes each of which has to come right behind the others of its level, on a level that
is there or is the next; nothing if one does not. -/
def place? (tree : Accumulator) (nodes : List (NodeAddress × Digest)) : Option Accumulator :=
  ((nodes.foldlM placeSorted tree.levels).map mk).toOption

theorem Complete.plan?_eq {tree : Accumulator} (complete : tree.Complete) {leaves : List Digest}
    (fits : tree.size + leaves.length < 2 ^ 64) :
    tree.plan? leaves = some (tree.planAppend leaves) := by
  rw [plan?, complete.climbs fits]
  rfl

theorem Complete.place?_plan {tree planned : Accumulator} (complete : tree.Complete)
    (plannedComplete : planned.Complete) (sameSize : planned.size = tree.size)
    {leaves : List Digest} (fits : tree.size + leaves.length < 2 ^ 64) :
    tree.place? (planned.planAppend leaves).nodes =
        some (tree.insertNodes (planned.planAppend leaves).nodes) ∧
      (tree.insertNodes (planned.planAppend leaves).nodes).Complete := by
  obtain ⟨grown, placed, grownComplete, -⟩ := complete.places_plan plannedComplete sameSize fits
  rw [insertNodes_of_placed placed]
  refine ⟨?_, grownComplete⟩
  rw [place?, placed]
  rfl

/-! ### Answers -/

structure Answers (tree : Accumulator) : Prop where
  rangeHash : ∀ start stop, start ≤ stop → stop ≤ tree.size →
    ∃ hash, tree.rangeHash start stop = .ok hash
  currentRoot : ∃ hash, tree.currentRoot = .ok hash
  root : ∀ treeSize,
    if tree.size < treeSize then
      tree.root treeSize = .error (.treeSizeOutOfRange treeSize tree.size)
    else ∃ hash, tree.root treeSize = .ok hash
  state : ∀ treeSize : UInt64,
    if tree.size < treeSize.toNat then
      tree.state treeSize = .error (.treeSizeOutOfRange treeSize.toNat tree.size)
    else ∃ hash, tree.state treeSize = .ok ⟨treeSize, hash⟩
  inclusionPath : ∀ index treeSize,
    if tree.size < treeSize then
      tree.inclusionPath index treeSize = .error (.treeSizeOutOfRange treeSize tree.size)
    else if treeSize ≤ index then
      tree.inclusionPath index treeSize = .error (.leafIndexOutOfRange index treeSize)
    else ∃ path, tree.inclusionPath index treeSize = .ok path
  consistencyPath : ∀ first second,
    if tree.size < second then
      tree.consistencyPath first second = .error (.treeSizeOutOfRange second tree.size)
    else if second < first then
      tree.consistencyPath first second = .error (.consistencyRange first second)
    else ∃ path, tree.consistencyPath first second = .ok path

theorem root_of_lt {tree : Accumulator} {treeSize : Nat} (beyond : tree.size < treeSize) :
    tree.root treeSize = .error (.treeSizeOutOfRange treeSize tree.size) := by
  rw [root, checkSize, if_pos beyond]
  rfl

theorem Complete.answers {tree : Accumulator} (complete : tree.Complete) : tree.Answers where
  rangeHash _ _ ordered within := complete.exists_rangeHash ordered within
  currentRoot := complete.exists_currentRoot
  root := by
    intro treeSize
    split
    · exact root_of_lt ‹_›
    · exact complete.exists_root (by omega)
  state := by
    intro treeSize
    split
    · rw [state, root_of_lt ‹_›]
      rfl
    · have within : treeSize.toNat ≤ tree.size := by omega
      obtain ⟨hash, found⟩ := complete.exists_root within
      refine ⟨hash, ?_⟩
      rw [state, found]
      rfl
  inclusionPath := by
    intro index treeSize
    split
    · rw [inclusionPath, checkSize, if_pos ‹_›]
      rfl
    · split
      · rw [inclusionPath, checkSize, if_neg ‹_›, if_pos ‹_›]
        rfl
      · exact complete.exists_inclusionPath (by omega) (by omega)
  consistencyPath := by
    intro first second
    split
    · rw [consistencyPath, checkSize, if_pos ‹_›]
      rfl
    · split
      · rw [consistencyPath, checkSize, if_neg ‹_›, if_pos ‹_›]
        rfl
      · exact complete.exists_consistencyPath (by omega) (by omega)

end Accumulator

/-! ### Runs -/

structure Workbench where
  tree : Accumulator
  plans : List AppendPlan
  deriving DecidableEq

inductive Act where
  | extend (leaves : List Digest)
  | plan (leaves : List Digest)
  /-- Applies a plan, told by how many were made before it. -/
  | apply (number : Nat)
  | replace (nodes : List (NodeAddress × Digest))
  deriving DecidableEq

def Act.Fits : Act → Prop
  | .extend leaves => leaves.length < 2 ^ 63
  | .plan leaves => leaves.length < 2 ^ 63
  | .apply _ => True
  | .replace _ => True

namespace Workbench

/-- What is refused leaves the tree as it is. -/
def act (bench : Workbench) : Act → Workbench
  | .extend leaves => { bench with tree := bench.tree.extend leaves }
  | .plan leaves => { bench with plans := bench.plans ++ [bench.tree.planAppend leaves] }
  | .apply number =>
    match bench.plans[number]? with
    | none => bench
    | some plan =>
      match bench.tree.apply plan with
      | .ok tree => { bench with tree := tree }
      | .error _ => bench
  | .replace nodes =>
    match Accumulator.ofNodes nodes with
    | .ok tree => { bench with tree := tree }
    | .error _ => bench

def act? (bench : Workbench) : Act → Option Workbench
  | .extend leaves => do
    let plan ← bench.tree.plan? leaves
    let tree ← bench.tree.place? plan.nodes
    return { bench with tree := tree }
  | .plan leaves => do
    let plan ← bench.tree.plan? leaves
    return { bench with plans := bench.plans ++ [plan] }
  | .apply number =>
    match bench.plans[number]? with
    | none => some bench
    | some plan =>
      if plan.baseSize = bench.tree.size then do
        let tree ← bench.tree.place? plan.nodes
        return { bench with tree := tree }
      else some bench
  | .replace nodes => some (bench.act (.replace nodes))

def run (acts : List Act) : Workbench := acts.foldl act ⟨.empty, []⟩

def run? (acts : List Act) : Option Workbench := acts.foldlM act? ⟨.empty, []⟩

structure Sound (bench : Workbench) : Prop where
  complete : bench.tree.Complete
  plans : ∀ plan ∈ bench.plans, ∃ (planned : Accumulator) (leaves : List Digest),
    planned.Complete ∧ leaves.length < 2 ^ 63 ∧ plan = planned.planAppend leaves

theorem Sound.extend {bench : Workbench} (sound : bench.Sound) {leaves : List Digest}
    (fits : bench.tree.size + leaves.length < 2 ^ 64) :
    bench.act? (.extend leaves) = some (bench.act (.extend leaves)) ∧
      (bench.act (.extend leaves)).Sound := by
  obtain ⟨placed, grown⟩ := sound.complete.place?_plan sound.complete rfl fits
  refine ⟨?_, grown, sound.plans⟩
  simp only [act?, sound.complete.plan?_eq fits, placed, Option.bind_eq_bind, Option.bind_some]
  rfl

theorem Sound.plan {bench : Workbench} (sound : bench.Sound) {leaves : List Digest}
    (fits : bench.tree.size < 2 ^ 63) (batchFits : leaves.length < 2 ^ 63) :
    bench.act? (.plan leaves) = some (bench.act (.plan leaves)) ∧
      (bench.act (.plan leaves)).Sound := by
  have room : bench.tree.size + leaves.length < 2 ^ 64 := by omega
  refine ⟨?_, sound.complete, ?_⟩
  · simp only [act?, sound.complete.plan?_eq room, Option.bind_eq_bind, Option.bind_some]
    rfl
  · intro plan member
    rcases List.mem_append.mp member with earlier | new
    · exact sound.plans plan earlier
    · exact ⟨bench.tree, leaves, sound.complete, batchFits, List.mem_singleton.mp new⟩

theorem Sound.apply {bench : Workbench} (sound : bench.Sound) (fits : bench.tree.size < 2 ^ 63)
    (number : Nat) :
    bench.act? (.apply number) = some (bench.act (.apply number)) ∧
      (bench.act (.apply number)).Sound := by
  simp only [act?, act]
  cases found : bench.plans[number]? with
  | none => exact ⟨rfl, sound⟩
  | some plan =>
      obtain ⟨planned, leaves, plannedComplete, batchFits, rfl⟩ :=
        sound.plans plan (List.mem_of_getElem? found)
      -- Sizes are all that is compared: the plan may have been made of another tree than this one.
      by_cases current : (planned.planAppend leaves).baseSize = bench.tree.size
      · have room : bench.tree.size + leaves.length < 2 ^ 64 := by omega
        obtain ⟨placed, grown⟩ := sound.complete.place?_plan plannedComplete current room
        simp only [Accumulator.apply, if_pos current, placed, Option.bind_eq_bind,
          Option.bind_some]
        exact ⟨rfl, grown, sound.plans⟩
      · simp only [Accumulator.apply, if_neg current]
        exact ⟨trivial, sound⟩

theorem Sound.replace {bench : Workbench} (sound : bench.Sound)
    (nodes : List (NodeAddress × Digest)) : (bench.act (.replace nodes)).Sound := by
  simp only [act]
  cases rebuilt : Accumulator.ofNodes nodes with
  | error cause => exact sound
  | ok tree => exact ⟨(Accumulator.complete_of_ofNodes rebuilt).1, sound.plans⟩

theorem Sound.act {bench : Workbench} (sound : bench.Sound) (fits : bench.tree.size < 2 ^ 63)
    {next : Act} (nextFits : next.Fits) :
    bench.act? next = some (bench.act next) ∧ (bench.act next).Sound := by
  cases next with
  | extend leaves =>
      have batchFits : leaves.length < 2 ^ 63 := nextFits
      exact sound.extend (by omega)
  | plan leaves => exact sound.plan fits nextFits
  | apply number => exact sound.apply fits number
  | replace nodes => exact ⟨rfl, sound.replace nodes⟩

theorem run_sound {acts : List Act} (fits : ∀ act ∈ acts, act.Fits)
    (short : ∀ before, before <+: acts → (run before).tree.size < 2 ^ 63) :
    run? acts = some (run acts) ∧ (run acts).Sound := by
  induction acts using List.reverseRecOn with
  | nil =>
      have empty := Accumulator.complete_ofLeaves []
      rw [Accumulator.ofLeaves_nil] at empty
      exact ⟨rfl, empty, by simp [run]⟩
  | append_singleton acts last ih =>
      obtain ⟨checked, sound⟩ := ih (fun act member => fits act (List.mem_append_left _ member))
        fun before earlier => short before (earlier.trans (List.prefix_append acts [last]))
      obtain ⟨stepped, soundAfter⟩ := sound.act (short acts (List.prefix_append acts [last]))
        (fits last (List.mem_append_right acts List.mem_cons_self))
      have whole : run (acts ++ [last]) = (run acts).act last := by simp [run]
      rw [whole]
      refine ⟨?_, soundAfter⟩
      rw [run?, List.foldlM_append, ← run?, checked]
      simpa using stepped

/-- No lookup fails in any run, whatever the leaves, the nodes and their hashes, and whichever plans
are applied to which trees. After each act the levels are those that the size calls for, and every
question is answered unless it is out of range. What is asked of the run is that its sizes are words
of a machine. -/
theorem run_inBounds {acts : List Act} (fits : ∀ act ∈ acts, act.Fits)
    (short : ∀ before, before <+: acts → (run before).tree.size < 2 ^ 63) :
    run? acts = some (run acts) ∧ (run acts).tree.Shaped ∧ (run acts).tree.Answers := by
  obtain ⟨checked, sound⟩ := run_sound fits short
  exact ⟨checked, sound.complete.shaped, sound.complete.answers⟩

theorem run_inBounds_foreignPlan :
    let acts : List Act := [.extend [hashLeaf [1]], .plan [hashLeaf [2], hashLeaf [3]],
      .replace [(⟨0, 0⟩, hashLeaf [4])], .apply 0, .apply 0]
    run? acts = some (run acts) ∧ (run acts).tree.size = 3 ∧ 1 < (run acts).tree.levels.size ∧
      ¬2 < (run acts).tree.levels.size ∧
      (run acts).tree.root 4 = .error (.treeSizeOutOfRange 4 3) ∧
      ∃ path, (run acts).tree.inclusionPath 2 3 = .ok path := by
  intro acts
  have size : (run acts).tree.size = 3 := by decide +kernel
  have short : ∀ before ∈ acts.inits, (run before).tree.size < 2 ^ 63 := by decide +kernel
  obtain ⟨checked, shaped, answers⟩ := @run_inBounds acts (by simp [acts, Act.Fits])
    fun before earlier => short before ((List.mem_inits before acts).mpr earlier)
  have levels := shaped.level_iff
  have beyond := answers.root 4
  have within := answers.inclusionPath 2 3
  rw [size] at levels beyond within
  exact ⟨checked, size, (levels 1).mpr (by decide), fun third => absurd ((levels 2).mp third)
    (by decide), beyond, within⟩

end Workbench

end VerifiableLog.Merkle
