import VerifiableLog.Proofs.Merkle.Workbench

/-!
How long a plan can be applied. Only sizes are compared then, but a tree that is extended and that
plans are applied to either stays the very same tree or gets larger, so where the size is still that
of the planning, so is the tree. A plan is taken until the first leaf is added, and it adds what
extending the tree would have added when it was made. From then on it is refused.
-/

namespace VerifiableLog.Merkle

namespace Accumulator

def Grew (before : Accumulator) (added : Nat) (after : Accumulator) : Prop :=
  (added = 0 ∧ after = before) ∨ (0 < added ∧ before.size < after.size)

theorem Grew.refl (tree : Accumulator) : tree.Grew 0 tree := .inl ⟨rfl, rfl⟩

theorem Grew.trans {before between after : Accumulator} {first second : Nat}
    (earlier : before.Grew first between) (later : between.Grew second after) :
    before.Grew (first + second) after := by
  rcases earlier with ⟨rfl, rfl⟩ | ⟨some, larger⟩
  · rwa [Nat.zero_add]
  · rcases later with ⟨rfl, rfl⟩ | ⟨-, largerStill⟩
    · exact .inr ⟨some, larger⟩
    · exact .inr ⟨by omega, Nat.lt_trans larger largerStill⟩

theorem Grew.size_eq_iff {before after : Accumulator} {added : Nat}
    (grew : before.Grew added after) : before.size = after.size ↔ added = 0 := by
  rcases grew with ⟨none, same⟩ | ⟨some, larger⟩
  · simp [none, same]
  · omega

theorem Grew.eq_of_none {before after : Accumulator} {added : Nat}
    (grew : before.Grew added after) (none : added = 0) : after = before := by
  rcases grew with ⟨-, same⟩ | ⟨some, -⟩
  · exact same
  · omega

theorem size_insertNode_leaf (levels : Array (Array Digest)) (index : UInt64) (hash : Digest) :
    (mk (insertNode levels (⟨0, index⟩, hash))).size = (mk levels).size + 1 := by
  obtain ⟨levels⟩ := levels
  cases levels with
  | nil => rfl
  | cons leaves above => simp [size, insertNode]

theorem exists_carry_leaf (index : Nat) (leaf : Digest) (frontier : Frontier) :
    ∃ parents, (frontier.carry 0 index leaf).1 =
      (⟨0, UInt64.ofNat index⟩, leaf) :: parents := by
  rcases frontier with _ | ⟨_ | left, above⟩ <;> exact ⟨_, rfl⟩

theorem insertNodes_cons (tree : Accumulator) (entry : NodeAddress × Digest)
    (nodes : List (NodeAddress × Digest)) :
    tree.insertNodes (entry :: nodes) = (mk (insertNode tree.levels entry)).insertNodes nodes :=
  rfl

theorem grew_insertNodes_plan (tree planned : Accumulator) (leaves : List Digest) :
    tree.Grew leaves.length (tree.insertNodes (planned.planAppend leaves).nodes) := by
  cases leaves with
  | nil => exact Grew.refl tree
  | cons leaf leaves =>
      obtain ⟨parents, first⟩ := exists_carry_leaf planned.size leaf planned.frontier
      refine .inr ⟨Nat.succ_pos _, ?_⟩
      -- The first node of a plan is a leaf, and what comes behind it takes nothing away.
      simp only [planAppend, Frontier.extend, first, List.cons_append, insertNodes_cons]
      calc
        tree.size < tree.size + 1 := Nat.lt_succ_self _
        _ = (mk (insertNode tree.levels (⟨0, UInt64.ofNat planned.size⟩, leaf))).size :=
          (size_insertNode_leaf tree.levels (UInt64.ofNat planned.size) leaf).symm
        _ ≤ _ := size_le_size_insertNodes _ _

end Accumulator

open Accumulator (Grew)

/-- Whether an act works on the tree at hand, and does not put another in its place. -/
def Act.Appends : Act → Prop
  | .replace _ => False
  | _ => True

namespace Workbench

def added (bench : Workbench) : Act → Nat
  | .extend leaves => leaves.length
  | .plan _ => 0
  | .apply number =>
    match bench.plans[number]? with
    | none => 0
    | some plan =>
      match bench.tree.apply plan with
      | .ok _ => plan.leafCount
      | .error _ => 0
  | .replace _ => 0

def addedBy (bench : Workbench) : List Act → Nat
  | [] => 0
  | next :: acts => bench.added next + (bench.act next).addedBy acts

def Made (bench : Workbench) : Prop :=
  ∀ plan ∈ bench.plans, ∃ (planned : Accumulator) (leaves : List Digest),
    plan = planned.planAppend leaves

/-! ### One act -/

theorem act_plans (bench : Workbench) (next : Act) :
    (bench.act next).plans = bench.plans ∨
      ∃ leaves, (bench.act next).plans = bench.plans ++ [bench.tree.planAppend leaves] := by
  cases next with
  | extend leaves => exact .inl rfl
  | plan leaves => exact .inr ⟨leaves, rfl⟩
  | apply number =>
      simp only [act]
      split
      · exact .inl rfl
      · split <;> exact .inl rfl
  | replace nodes =>
      simp only [act]
      cases Accumulator.ofNodes nodes <;> exact .inl rfl

theorem Made.act {bench : Workbench} (made : bench.Made) (next : Act) :
    (bench.act next).Made := by
  intro plan member
  rcases act_plans bench next with same | ⟨leaves, grown⟩
  · exact made plan (same ▸ member)
  · rw [grown, List.mem_append, List.mem_singleton] at member
    rcases member with earlier | rfl
    · exact made plan earlier
    · exact ⟨bench.tree, leaves, rfl⟩

theorem Made.grew_act {bench : Workbench} (made : bench.Made) {next : Act}
    (appends : next.Appends) : bench.tree.Grew (bench.added next) (bench.act next).tree := by
  cases next with
  | extend leaves => exact Accumulator.grew_insertNodes_plan bench.tree bench.tree leaves
  | plan leaves => exact Grew.refl bench.tree
  | apply number =>
      simp only [added, Workbench.act]
      cases found : bench.plans[number]? with
      | none => exact Grew.refl bench.tree
      | some plan =>
          obtain ⟨planned, leaves, rfl⟩ := made plan (List.mem_of_getElem? found)
          by_cases current : (planned.planAppend leaves).baseSize = bench.tree.size
          · simp only [Accumulator.apply, if_pos current]
            exact Accumulator.grew_insertNodes_plan bench.tree planned leaves
          · simp only [Accumulator.apply, if_neg current]
            exact Grew.refl bench.tree
  | replace nodes => exact appends.elim

/-! ### All acts -/

theorem Made.foldl {bench : Workbench} (made : bench.Made) (acts : List Act) :
    (acts.foldl Workbench.act bench).Made := by
  induction acts generalizing bench with
  | nil => exact made
  | cons next acts ih => exact ih (made.act next)

theorem Made.grew {bench : Workbench} (made : bench.Made) {acts : List Act}
    (appends : ∀ act ∈ acts, act.Appends) :
    bench.tree.Grew (bench.addedBy acts) (acts.foldl Workbench.act bench).tree := by
  induction acts generalizing bench with
  | nil => exact Grew.refl bench.tree
  | cons next acts ih =>
      rw [List.forall_mem_cons] at appends
      exact (made.grew_act appends.1).trans (ih (made.act next) appends.2)

theorem made_run (acts : List Act) : (run acts).Made :=
  Made.foldl (by simp [Made]) acts

theorem getElem?_plans_foldl {bench : Workbench} {number : Nat} {plan : AppendPlan}
    (kept : bench.plans[number]? = some plan) (acts : List Act) :
    (acts.foldl Workbench.act bench).plans[number]? = some plan := by
  induction acts generalizing bench with
  | nil => exact kept
  | cons next acts ih =>
      apply ih
      rcases act_plans bench next with same | ⟨leaves, grown⟩
      · rwa [same]
      · obtain ⟨inside, -⟩ := List.getElem?_eq_some_iff.mp kept
        rwa [grown, List.getElem?_append_left inside]

theorem run_append (before after : List Act) :
    run (before ++ after) = after.foldl act (run before) :=
  List.foldl_append

theorem addedBy_append (bench : Workbench) (first second : List Act) :
    bench.addedBy (first ++ second) =
      bench.addedBy first + (first.foldl act bench).addedBy second := by
  induction first generalizing bench with
  | nil => simp [addedBy]
  | cons next first ih =>
      rw [List.cons_append, addedBy, addedBy, ih, List.foldl_cons, Nat.add_assoc]

/-! ### A plan of another moment -/

/-- What comes of a plan, kept under its number, when `added` leaves have come since it was made. -/
structure Honours (bench : Workbench) (number : Nat) (planned : Accumulator)
    (leaves : List Digest) (added : Nat) : Prop where
  kept : bench.plans[number]? = some (planned.planAppend leaves)
  accepted_iff : (∃ tree, bench.tree.apply (planned.planAppend leaves) = .ok tree) ↔ added = 0
  current : added = 0 →
    bench.tree.apply (planned.planAppend leaves) = .ok (planned.extend leaves) ∧
      bench.act (.apply number) = { bench with tree := planned.extend leaves }
  stale : 0 < added →
    bench.tree.apply (planned.planAppend leaves) =
        .error (.stalePlan planned.size bench.tree.size) ∧
      bench.act (.apply number) = bench

theorem Honours.of_grew {bench : Workbench} {number added : Nat} {planned : Accumulator}
    {leaves : List Digest} (grew : planned.Grew added bench.tree)
    (kept : bench.plans[number]? = some (planned.planAppend leaves)) :
    bench.Honours number planned leaves added := by
  have current (none : added = 0) :
      bench.tree.apply (planned.planAppend leaves) = .ok (planned.extend leaves) := by
    rw [grew.eq_of_none none]
    exact Accumulator.apply_planAppend planned leaves
  have stale (some : 0 < added) : bench.tree.apply (planned.planAppend leaves) =
      .error (.stalePlan planned.size bench.tree.size) :=
    if_neg (mt grew.size_eq_iff.mp (by omega))
  refine ⟨kept, ?_, ?_, ?_⟩
  · constructor
    · rintro ⟨tree, accepted⟩
      refine Nat.eq_zero_of_not_pos fun some => ?_
      rw [stale some] at accepted
      contradiction
    · intro none
      exact ⟨_, current none⟩
  · intro none
    refine ⟨current none, ?_⟩
    simp only [act, kept, current none]
  · intro some
    refine ⟨stale some, ?_⟩
    simp only [act, kept, stale some]

theorem honours_run (before after : List Act) (leaves : List Digest)
    (appends : ∀ act ∈ after, act.Appends) :
    (run (before ++ .plan leaves :: after)).Honours (run before).plans.length (run before).tree
      leaves (((run before).act (.plan leaves)).addedBy after) := by
  rw [run_append, List.foldl_cons]
  apply Honours.of_grew
  · exact ((made_run before).act (.plan leaves)).grew appends
  · apply getElem?_plans_foldl
    simp [act]

/-- However many leaves, plans and applications come between: a plan is taken if and only if no leaf
has been added since it was made, and the tree is then what extending it would have made of it at
that moment. Otherwise it is refused with both sizes, and nothing changes. So a plan of at least one
leaf, once taken, is refused ever after. -/
theorem plan_applies_until_grown (before after : List Act) (leaves : List Digest)
    (appends : ∀ act ∈ after, act.Appends) :
    (run (before ++ .plan leaves :: after)).Honours (run before).plans.length (run before).tree
        leaves (((run before).act (.plan leaves)).addedBy after) ∧
      (leaves ≠ [] → (∃ tree, (run (before ++ .plan leaves :: after)).tree.apply
          ((run before).tree.planAppend leaves) = .ok tree) →
        ∀ later : List Act, (∀ act ∈ later, act.Appends) →
          let again := run (before ++ .plan leaves ::
            (after ++ .apply (run before).plans.length :: later))
          again.tree.apply ((run before).tree.planAppend leaves) =
            .error (.stalePlan (run before).tree.size again.tree.size)) := by
  have honours := honours_run before after leaves appends
  refine ⟨honours, ?_⟩
  intro inhabited accepted later laterAppends again
  have applied : (run (before ++ .plan leaves :: after)).added
      (.apply (run before).plans.length) = leaves.length := by
    simp only [added, honours.kept, (honours.current (honours.accepted_iff.mp accepted)).1]
    rfl
  have allAppend : ∀ act ∈ after ++ .apply (run before).plans.length :: later, act.Appends := by
    simp only [List.forall_mem_append, List.forall_mem_cons]
    exact ⟨appends, trivial, laterAppends⟩
  refine ((honours_run before _ leaves allAppend).stale ?_).1
  have positive := List.length_pos_iff.mpr inhabited
  rw [run_append, List.foldl_cons] at applied
  rw [addedBy_append, addedBy, applied]
  omega

theorem plan_applies_until_grown_twoPlans :
    let before : List Act := [.extend [hashLeaf [1]]]
    let leaves := [hashLeaf [2], hashLeaf [3]]
    let after : List Act := [.plan [hashLeaf [4]], .extend []]
    let plan := (run before).tree.planAppend leaves
    (∀ act ∈ after, act.Appends) ∧ leaves ≠ [] ∧
      (run (before ++ .plan leaves :: after)).tree.apply plan =
        .ok ((run before).tree.extend leaves) ∧
      (run (before ++ .plan leaves :: (after ++ [.apply 0, .apply 1]))).tree.apply plan =
        .error (.stalePlan 1 3) := by
  intro before leaves after plan
  have appends : ∀ act ∈ after, act.Appends := by simp [after, Act.Appends]
  obtain ⟨honours, once⟩ := plan_applies_until_grown before after leaves appends
  obtain ⟨accepted, -⟩ := honours.current (by decide +kernel)
  have stale := once (by simp [leaves]) ⟨_, accepted⟩ [.apply 1] (by simp [Act.Appends])
  have sizes : (run before).tree.size = 1 ∧
      (run (before ++ .plan leaves :: (after ++ [.apply 0, .apply 1]))).tree.size = 3 := by
    decide +kernel
  simp only [show (run before).plans.length = 0 from rfl] at stale
  rw [sizes.1, sizes.2] at stale
  exact ⟨appends, by simp [leaves], accepted, stale⟩

end Workbench

end VerifiableLog.Merkle
