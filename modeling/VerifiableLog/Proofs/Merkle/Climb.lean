import VerifiableLog.Proofs.Merkle.Route

/-!
Climbing along a route. The loops that check inclusion and consistency go up the same way and
differ only in the state that they carry and in the hashes that they make of it. Each of them
follows the route of its first node to the root and uses up one sibling for each side on it.
-/

namespace VerifiableLog.Merkle

/-- What a climb makes of one sibling: the state to go on with and the pairs hashed to get it. -/
structure Ascent (State : Type) where
  join : Side → Digest → State → State
  hashed : Side → Digest → State → List (Digest × Digest)

namespace Ascent

variable {State : Type}

def follow (ascent : Ascent State) : List Side → State → List Digest → Except ProofError State
  | [], state, [] => .ok state
  | side :: sides, state, sibling :: path =>
    ascent.follow sides (ascent.join side sibling state) path
  | _, _, _ => .error .wrongPathLength

def trace (ascent : Ascent State) : List Side → State → List Digest → List (Digest × Digest)
  | side :: sides, state, sibling :: path =>
    ascent.hashed side sibling state ++ ascent.trace sides (ascent.join side sibling state) path
  | _, _, _ => []

theorem follow_concat (ascent : Ascent State) (sides : List Side) (side : Side) (state : State)
    (path : List Digest) (sibling : Digest) :
    ascent.follow (sides ++ [side]) state (path ++ [sibling]) =
      (ascent.follow sides state path).map (ascent.join side sibling) := by
  induction sides generalizing state path with
  | nil =>
      cases path with
      | nil => rfl
      | cons next path => cases path <;> rfl
  | cons nearest sides ih =>
      cases path with
      | nil => cases sides <;> rfl
      | cons next path => exact ih (ascent.join nearest next state) path

theorem toOption_follow_concat (ascent : Ascent State) (sides : List Side) (side : Side)
    (state : State) (path : List Digest) (sibling : Digest) :
    (ascent.follow (sides ++ [side]) state (path ++ [sibling])).toOption =
      (ascent.follow sides state path).toOption.map (ascent.join side sibling) := by
  rw [follow_concat]
  cases ascent.follow sides state path <;> rfl

theorem follow_cases (ascent : Ascent State) (sides : List Side) (state : State)
    (path : List Digest) :
    (∃ reached, ascent.follow sides state path = .ok reached) ∨
      ascent.follow sides state path = .error .wrongPathLength := by
  induction sides generalizing state path with
  | nil =>
      cases path with
      | nil => exact .inl ⟨state, rfl⟩
      | cons sibling path => exact .inr rfl
  | cons side sides ih =>
      cases path with
      | nil => exact .inr rfl
      | cons sibling path => exact ih (ascent.join side sibling state) path

theorem follow_concat_nil (ascent : Ascent State) (sides : List Side) (side : Side)
    (state : State) : ascent.follow (sides ++ [side]) state [] = .error .wrongPathLength := by
  cases sides <;> rfl

theorem trace_concat (ascent : Ascent State) {sides : List Side} {state reached : State}
    {path : List Digest} (followed : ascent.follow sides state path = .ok reached) (side : Side)
    (sibling : Digest) :
    ascent.trace (sides ++ [side]) state (path ++ [sibling]) =
      ascent.trace sides state path ++ ascent.hashed side sibling reached := by
  induction sides generalizing state path with
  | nil =>
      cases path with
      | nil =>
          simp only [follow, Except.ok.injEq] at followed
          simp [trace, followed]
      | cons next path => simp [follow] at followed
  | cons nearest sides ih =>
      cases path with
      | nil => simp [follow] at followed
      | cons next path =>
          simp only [follow] at followed
          simp only [List.cons_append, trace, ih followed, List.append_assoc]

theorem exists_last_step {ascent : Ascent State} {sides : List Side} {side : Side}
    {state reached : State} {path : List Digest}
    (followed : ascent.follow (sides ++ [side]) state path = .ok reached) :
    ∃ lower sibling before, path = lower ++ [sibling] ∧
      ascent.follow sides state lower = .ok before ∧
      ascent.join side sibling before = reached ∧
      ascent.trace (sides ++ [side]) state path =
        ascent.trace sides state lower ++ ascent.hashed side sibling before := by
  rcases List.eq_nil_or_concat path with rfl | ⟨lower, sibling, rfl⟩
  · rw [follow_concat_nil] at followed
    contradiction
  · rw [List.concat_eq_append] at followed ⊢
    rw [follow_concat] at followed
    cases below : ascent.follow sides state lower with
    | error fault => simp [below, Except.map] at followed
    | ok before =>
        simp only [below, Except.map, Except.ok.injEq] at followed
        exact ⟨lower, sibling, before, rfl, below, followed,
          ascent.trace_concat below side sibling⟩

end Ascent

def inclusionAscent : Ascent Digest where
  join
    | .left, sibling, hash => hashChildren sibling hash
    | .right, sibling, hash => hashChildren hash sibling
  hashed
    | .left, sibling, hash => [(sibling, hash)]
    | .right, sibling, hash => [(hash, sibling)]

def consistencyAscent : Ascent (Digest × Digest) where
  join
    | .left, sibling, (earlier, later) =>
      (hashChildren sibling earlier, hashChildren sibling later)
    | .right, sibling, (earlier, later) => (earlier, hashChildren later sibling)
  hashed
    | .left, sibling, (earlier, later) => [(sibling, earlier), (sibling, later)]
    | .right, sibling, (_, later) => [(later, sibling)]

/-- The indices of a node and of the last node of its level, on the way up along given sides. -/
inductive Climb : Nat → Nat → List Side → Prop
  | root : Climb 0 0 []
  | fromRight {node last sides} : last ≠ 0 → node % 2 = 1 ∨ node = last →
      Climb (climbFromRight node last).1 (climbFromRight node last).2 sides →
      Climb node last (.left :: sides)
  | fromLeft {node last sides} : last ≠ 0 → ¬(node % 2 = 1 ∨ node = last) →
      Climb (node / 2) (last / 2) sides → Climb node last (.right :: sides)

theorem climbFromRight_of_odd {node last : Nat} (odd : node % 2 = 1) :
    climbFromRight node last = (node / 2, last / 2) := by
  rw [climbFromRight, skipLonely, dif_neg (by omega)]

theorem climbFromRight_of_even {node last : Nat} (even : node % 2 = 0) (notFirst : node ≠ 0) :
    climbFromRight node last = climbFromRight (node / 2) (last / 2) := by
  rw [climbFromRight, skipLonely, dif_pos ⟨even, notFirst⟩, ← climbFromRight]

theorem climbFromRight_route {node last : Nat} (within : node ≤ last) (notTop : last ≠ 0)
    (turn : node % 2 = 1 ∨ node = last) :
    (climbFromRight node last).2 < last ∧
      (climbFromRight node last).1 ≤ (climbFromRight node last).2 ∧
      route node (last + 1) =
        .left :: route (climbFromRight node last).1 ((climbFromRight node last).2 + 1) := by
  induction node using Nat.strongRecOn generalizing last with
  | ind node ih =>
      have parents : (last + 1 + 1) / 2 = last / 2 + 1 := by omega
      rw [route_eq_append (Nat.lt_succ_of_le within) (by omega), parents]
      by_cases odd : node % 2 = 1
      · rw [climbFromRight_of_odd odd, lowestSide, if_pos odd]
        exact ⟨by omega, by omega, rfl⟩
      · obtain ⟨lower, ordered, above⟩ :=
          ih (node / 2) (by omega) (Nat.div_le_div_right within) (by omega) (by omega)
        rw [climbFromRight_of_even (by omega) (by omega), lowestSide, if_neg odd,
          if_neg (by omega), above]
        exact ⟨by omega, ordered, rfl⟩

theorem climb_route {node last : Nat} (within : node ≤ last) :
    Climb node last (route node (last + 1)) := by
  induction last using Nat.strongRecOn generalizing node with
  | ind last ih =>
      by_cases top : last = 0
      · obtain rfl : node = 0 := by omega
        subst top
        rw [route_of_small (by omega)]
        exact Climb.root
      · by_cases turn : node % 2 = 1 ∨ node = last
        · obtain ⟨lower, ordered, above⟩ := climbFromRight_route within top turn
          rw [above]
          exact Climb.fromRight top turn (ih _ lower ordered)
        · have parents : (last + 1 + 1) / 2 = last / 2 + 1 := by omega
          rw [route_eq_append (by omega) (by omega), parents, lowestSide, if_neg (by omega),
            if_pos (by omega)]
          exact Climb.fromLeft top turn (ih _ (by omega) (by omega))

theorem climb_route_of_lt {index treeSize : Nat} (inside : index < treeSize) :
    Climb index (treeSize - 1) (route index treeSize) := by
  have climb := climb_route (Nat.le_sub_one_of_lt inside)
  rwa [Nat.sub_add_cancel (by omega)] at climb

theorem climb_growthRoute {first second : Nat} (inhabited : 0 < first) (smaller : first < second) :
    Climb (skipRightChildren (first - 1) (second - 1)).1
      (skipRightChildren (first - 1) (second - 1)).2 (growthRoute first second) := by
  obtain ⟨within, above⟩ := route_skipRightChildren inhabited smaller
  rw [← above]
  exact climb_route within

theorem climbInclusion_eq_follow {node last : Nat} {sides : List Side}
    (climb : Climb node last sides) (hash : Digest) (path : List Digest) :
    climbInclusion node last hash path = inclusionAscent.follow sides hash path := by
  induction climb generalizing hash path with
  | root => cases path <;> rfl
  | fromRight notTop turn _ ih =>
      cases path with
      | nil => simp [climbInclusion, Ascent.follow, notTop]
      | cons sibling path =>
          rw [climbInclusion, if_neg notTop, if_pos turn]
          exact ih (hashChildren sibling hash) path
  | fromLeft notTop noTurn _ ih =>
      cases path with
      | nil => simp [climbInclusion, Ascent.follow, notTop]
      | cons sibling path =>
          rw [climbInclusion, if_neg notTop, if_neg noTurn]
          exact ih (hashChildren hash sibling) path

theorem climbConsistency_eq_follow {node last : Nat} {sides : List Side}
    (climb : Climb node last sides) (earlier later : Digest) (path : List Digest) :
    climbConsistency node last earlier later path =
      consistencyAscent.follow sides (earlier, later) path := by
  induction climb generalizing earlier later path with
  | root => cases path <;> rfl
  | fromRight notTop turn _ ih =>
      cases path with
      | nil => simp [climbConsistency, Ascent.follow, notTop]
      | cons sibling path =>
          rw [climbConsistency, if_neg notTop, if_pos turn]
          exact ih (hashChildren sibling earlier) (hashChildren sibling later) path
  | fromLeft notTop noTurn _ ih =>
      cases path with
      | nil => simp [climbConsistency, Ascent.follow, notTop]
      | cons sibling path =>
          rw [climbConsistency, if_neg notTop, if_neg noTurn]
          exact ih earlier (hashChildren later sibling) path

theorem rootFromInclusionProof_eq_follow {index treeSize : Nat} (inside : index < treeSize)
    (leaf : Digest) (path : List Digest) :
    rootFromInclusionProof leaf index treeSize path =
      inclusionAscent.follow (route index treeSize) leaf path := by
  rw [rootFromInclusionProof, if_neg (Nat.not_le_of_lt inside),
    climbInclusion_eq_follow (climb_route_of_lt inside)]

theorem verifyInclusion_ok_iff {leaf root : Digest} {index treeSize : Nat} {path : List Digest} :
    verifyInclusion leaf index treeSize path root = .ok () ↔
      index < treeSize ∧ inclusionAscent.follow (route index treeSize) leaf path = .ok root := by
  by_cases inside : index < treeSize
  · rw [verifyInclusion, rootFromInclusionProof_eq_follow inside]
    cases inclusionAscent.follow (route index treeSize) leaf path <;>
      simp [bind, Except.bind, inside]
  · simp [verifyInclusion, rootFromInclusionProof, Nat.le_of_not_lt inside, inside, bind,
      Except.bind]

theorem verifyConsistency_trivial_ok_iff {first second : Nat} {firstRoot secondRoot : Digest}
    {path : List Digest} (ordered : first ≤ second) (trivial : first = 0 ∨ first = second) :
    verifyConsistency first second firstRoot secondRoot path = .ok () ↔
      path = [] ∧ (first = second → firstRoot = secondRoot) := by
  cases path with
  | nil => simp [verifyConsistency, Nat.not_lt_of_le ordered, trivial]
  | cons head tail => simp [verifyConsistency, Nat.not_lt_of_le ordered, trivial]

def consistencyStart (first : Nat) (firstRoot : Digest) :
    List Digest → Option (Digest × List Digest)
  | [] => if isPowerOfTwo first then some (firstRoot, []) else none
  | head :: tail => if isPowerOfTwo first then some (firstRoot, head :: tail) else some (head, tail)

theorem verifyConsistency_eq_follow {first second : Nat} (inhabited : 0 < first)
    (smaller : first < second) (firstRoot secondRoot : Digest) (path : List Digest) :
    verifyConsistency first second firstRoot secondRoot path =
      match consistencyStart first firstRoot path with
      | none => .error .wrongPathLength
      | some (start, rest) =>
        match consistencyAscent.follow (growthRoute first second) (start, start) rest with
        | .error fault => .error fault
        | .ok roots => if roots = (firstRoot, secondRoot) then .ok () else .error .rootMismatch := by
  have climb := climb_growthRoute inhabited smaller
  have ordered : ¬first > second := by omega
  have different : ¬(first = 0 ∨ first = second) := by omega
  cases path with
  | nil =>
      obtain ⟨lower, side, isConcat⟩ := exists_growthRoute_concat inhabited smaller
      rw [verifyConsistency, if_neg ordered, if_neg different, consistencyStart, isConcat]
      by_cases power : isPowerOfTwo first = true
      · simp only [power, if_true, Ascent.follow_concat_nil]
      · simp only [power, Bool.false_eq_true, if_false]
  | cons head tail =>
      rw [verifyConsistency, if_neg ordered, if_neg different, consistencyStart]
      by_cases power : isPowerOfTwo first = true
      · simp only [power, if_true, climbConsistency_eq_follow climb]
        cases consistencyAscent.follow (growthRoute first second) (firstRoot, firstRoot)
          (head :: tail) <;> simp [bind, Except.bind, Prod.ext_iff]
      · simp only [power, Bool.false_eq_true, if_false, climbConsistency_eq_follow climb]
        cases consistencyAscent.follow (growthRoute first second) (head, head) tail <;>
          simp [bind, Except.bind, Prod.ext_iff]

theorem verifyConsistency_ok_iff {first second : Nat} {firstRoot secondRoot : Digest}
    {path : List Digest} (inhabited : 0 < first) (smaller : first < second) :
    verifyConsistency first second firstRoot secondRoot path = .ok () ↔
      ∃ start rest, consistencyStart first firstRoot path = some (start, rest) ∧
        consistencyAscent.follow (growthRoute first second) (start, start) rest =
          .ok (firstRoot, secondRoot) := by
  rw [verifyConsistency_eq_follow inhabited smaller]
  cases consistencyStart first firstRoot path with
  | none => simp
  | some begin =>
      obtain ⟨start, rest⟩ := begin
      cases followed : consistencyAscent.follow (growthRoute first second) (start, start) rest with
      | error fault => simp [followed, and_assoc]
      | ok roots => simp [followed, and_assoc]

end VerifiableLog.Merkle
