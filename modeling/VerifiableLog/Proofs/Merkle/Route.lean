import VerifiableLog.Merkle.Verification
import VerifiableLog.Proofs.Merkle.Split

/-!
Routes from a leaf to the root. A route lists, nearest first, on which side each sibling stands. It
is defined by the splits of the tree, from the root down, while a proof is checked from the leaf up
on halved indices. The two agree: halving takes the first side off a route, and none where the node
is the last of its level and has no sibling there.
-/

namespace VerifiableLog.Merkle

inductive Side where
  | left
  | right
  deriving DecidableEq, Repr

/-- The sides of the siblings of the leaf `index` in a tree of `count` leaves. -/
def route (index count : Nat) : List Side :=
  if _ : 2 ≤ count then
    let split := splitPoint count
    if index < split then route index split ++ [.right]
    else route (index - split) (count - split) ++ [.left]
  else []
termination_by count
decreasing_by
  · exact splitPoint_lt (by omega)
  · have positive := splitPoint_pos count
    omega

theorem route_of_small {index count : Nat} (small : count < 2) : route index count = [] := by
  rw [route, dif_neg (by omega)]

theorem route_of_lt_split {index count : Nat} (several : 2 ≤ count)
    (before : index < splitPoint count) :
    route index count = route index (splitPoint count) ++ [.right] := by
  rw [route, dif_pos several]
  exact if_pos before

theorem route_of_split_le {index count : Nat} (several : 2 ≤ count)
    (behind : splitPoint count ≤ index) :
    route index count = route (index - splitPoint count) (count - splitPoint count) ++ [.left] := by
  rw [route, dif_pos several]
  exact if_neg (by omega)

theorem exists_route_concat {count : Nat} (several : 2 ≤ count) (index : Nat) :
    ∃ lower side, route index count = lower ++ [side] := by
  by_cases before : index < splitPoint count
  · exact ⟨_, _, route_of_lt_split several before⟩
  · exact ⟨_, _, route_of_split_le several (Nat.le_of_not_lt before)⟩

def lowestSide (index count : Nat) : List Side :=
  if index % 2 = 1 then [.left] else if index + 1 < count then [.right] else []

theorem lowestSide_of_lt {index middle count : Nat} (even : middle % 2 = 0)
    (before : index < middle) (within : middle ≤ count) :
    lowestSide index middle = lowestSide index count := by
  simp only [lowestSide]
  split
  · rfl
  · rw [if_pos (by omega), if_pos (by omega)]

theorem lowestSide_sub {index count start : Nat} (even : start % 2 = 0) (behind : start ≤ index) :
    lowestSide (index - start) (count - start) = lowestSide index count := by
  have parity : (index - start) % 2 = index % 2 := by omega
  have sibling : index - start + 1 < count - start ↔ index + 1 < count := by omega
  simp only [lowestSide, parity, sibling]

theorem route_eq_append {index count : Nat} (inside : index < count) (several : 2 ≤ count) :
    route index count = lowestSide index count ++ route (index / 2) ((count + 1) / 2) := by
  induction count using Nat.strongRecOn generalizing index with
  | ind count ih =>
      by_cases pair : count = 2
      · subst pair
        have single : route (index / 2) ((2 + 1) / 2) = [] := route_of_small (by omega)
        rw [single, List.append_nil]
        by_cases first : index = 0
        · rw [route_of_lt_split several (by rw [splitPoint_two]; omega), splitPoint_two,
            route_of_small (by omega)]
          simp [lowestSide, first]
        · have second : index = 1 := by omega
          rw [route_of_split_le several (by rw [splitPoint_two]; omega), splitPoint_two,
            route_of_small (by omega)]
          simp [lowestSide, second]
      · have three : 3 ≤ count := by omega
        have double := splitPoint_eq_two_mul three
        have bound := splitPoint_lt several
        have parents : 2 ≤ (count + 1) / 2 := by omega
        have halfPositive := splitPoint_pos ((count + 1) / 2)
        by_cases before : index < splitPoint count
        · have upper := ih (splitPoint count) bound before (by omega)
          have halfSplit : (splitPoint count + 1) / 2 = splitPoint ((count + 1) / 2) := by omega
          rw [route_of_lt_split several before, upper, halfSplit,
            lowestSide_of_lt (by omega) before (Nat.le_of_lt bound),
            route_of_lt_split parents (by omega), List.append_assoc]
        · rw [route_of_split_le several (by omega), route_of_split_le parents (by omega)]
          have parent : (index - splitPoint count) / 2 =
              index / 2 - splitPoint ((count + 1) / 2) := by
            omega
          have parentCount : (count - splitPoint count + 1) / 2 =
              (count + 1) / 2 - splitPoint ((count + 1) / 2) := by
            omega
          by_cases lone : count - splitPoint count < 2
          · have noSide : lowestSide index count = [] := by
              simp only [lowestSide]
              rw [if_neg (by omega), if_neg (by omega)]
            rw [route_of_small lone, noSide, route_of_small (by omega), List.nil_append,
              List.nil_append]
          · have behind : index - splitPoint count < count - splitPoint count := by omega
            have upper := ih (count - splitPoint count) (by omega) behind (by omega)
            rw [upper, lowestSide_sub (by omega) (by omega), parent, parentCount,
              List.append_assoc]

/-! The way up from an earlier tree starts at the largest complete subtree that ends where the
earlier tree ends. -/

/-- The sides of the siblings that complete the tree of `first` leaves to one of `second`. -/
def growthRoute (first second : Nat) : List Side :=
  if first = second then []
  else if _ : 2 ≤ second then
    let split := splitPoint second
    if first ≤ split then growthRoute first split ++ [.right]
    else growthRoute (first - split) (second - split) ++ [.left]
  else []
termination_by second
decreasing_by
  · exact splitPoint_lt (by omega)
  · have positive := splitPoint_pos second
    omega

@[simp] theorem growthRoute_self (count : Nat) : growthRoute count count = [] := by
  rw [growthRoute, if_pos rfl]

theorem growthRoute_of_le_split {first second : Nat} (several : 2 ≤ second)
    (smaller : first < second) (within : first ≤ splitPoint second) :
    growthRoute first second = growthRoute first (splitPoint second) ++ [.right] := by
  rw [growthRoute, if_neg (by omega), dif_pos several]
  exact if_pos within

theorem growthRoute_of_split_lt {first second : Nat} (smaller : first < second)
    (beyond : splitPoint second < first) :
    growthRoute first second =
      growthRoute (first - splitPoint second) (second - splitPoint second) ++ [.left] := by
  have positive := splitPoint_pos second
  rw [growthRoute, if_neg (by omega), dif_pos (by omega)]
  exact if_neg (by omega)

theorem exists_growthRoute_concat {first second : Nat} (inhabited : 0 < first)
    (smaller : first < second) : ∃ lower side, growthRoute first second = lower ++ [side] := by
  by_cases within : first ≤ splitPoint second
  · exact ⟨_, _, growthRoute_of_le_split (by omega) smaller within⟩
  · exact ⟨_, _, growthRoute_of_split_lt smaller (by omega)⟩

theorem growthRoute_of_odd {first second : Nat} (odd : first % 2 = 1)
    (smaller : first < second ∨ first = 1 ∧ second = 1) :
    growthRoute first second = route (first - 1) second := by
  induction second using Nat.strongRecOn generalizing first with
  | ind second ih =>
      rcases smaller with smaller | ⟨rfl, rfl⟩
      · have several : 2 ≤ second := by omega
        have bound := splitPoint_lt several
        by_cases pair : second = 2
        · obtain rfl : first = 1 := by omega
          subst pair
          rw [growthRoute_of_le_split several smaller (Nat.le_of_eq splitPoint_two.symm),
            route_of_lt_split several (by rw [splitPoint_two]; omega), splitPoint_two,
            growthRoute_self, route_of_small (by omega)]
        · have three : 3 ≤ second := by omega
          have double := splitPoint_eq_two_mul three
          by_cases within : first ≤ splitPoint second
          · rw [growthRoute_of_le_split several smaller within,
              route_of_lt_split several (by omega), ih _ bound odd (by omega)]
          · have positive := splitPoint_pos second
            have previous : first - splitPoint second - 1 = first - 1 - splitPoint second := by
              omega
            rw [growthRoute_of_split_lt smaller (by omega), route_of_split_le several (by omega),
              ih _ (by omega) (by omega) (by omega), previous]
      · rw [growthRoute_self, route_of_small (by omega)]

theorem growthRoute_of_even {first second : Nat} (even : first % 2 = 0) (inhabited : 0 < first)
    (notLarger : first ≤ second) :
    growthRoute first second = growthRoute (first / 2) ((second + 1) / 2) := by
  induction second using Nat.strongRecOn generalizing first with
  | ind second ih =>
      by_cases same : first = second
      · have parents : (second + 1) / 2 = first / 2 := by omega
        rw [parents, same, growthRoute_self, growthRoute_self]
      · have three : 3 ≤ second := by omega
        have bound := splitPoint_lt (Nat.le_of_succ_le three)
        have double := splitPoint_eq_two_mul three
        have halfPositive := splitPoint_pos ((second + 1) / 2)
        by_cases within : first ≤ splitPoint second
        · have halfSplit : (splitPoint second + 1) / 2 = splitPoint ((second + 1) / 2) := by omega
          have upper : growthRoute (first / 2) ((second + 1) / 2) =
              growthRoute (first / 2) (splitPoint ((second + 1) / 2)) ++ [.right] :=
            growthRoute_of_le_split (by omega) (by omega) (by omega)
          rw [growthRoute_of_le_split (by omega) (by omega) within, upper,
            ih _ bound even inhabited within, halfSplit]
        · have parent : (first - splitPoint second) / 2 =
              first / 2 - splitPoint ((second + 1) / 2) := by
            omega
          have parentCount : (second - splitPoint second + 1) / 2 =
              (second + 1) / 2 - splitPoint ((second + 1) / 2) := by
            omega
          have upper : growthRoute (first / 2) ((second + 1) / 2) =
              growthRoute (first / 2 - splitPoint ((second + 1) / 2))
                ((second + 1) / 2 - splitPoint ((second + 1) / 2)) ++ [.left] :=
            growthRoute_of_split_lt (by omega) (by omega)
          rw [growthRoute_of_split_lt (by omega) (by omega), upper,
            ih _ (by omega) (by omega) (by omega) (by omega), parent, parentCount]

theorem skipRightChildren_of_even {node last : Nat} (even : node % 2 = 0) :
    skipRightChildren node last = (node, last) := by
  rw [skipRightChildren, dif_neg (by omega)]

theorem skipRightChildren_of_odd {node last : Nat} (odd : node % 2 = 1) :
    skipRightChildren node last = skipRightChildren (node / 2) (last / 2) := by
  rw [skipRightChildren, dif_pos odd]

/-- Where the climb from the last leaf of the earlier tree leaves its right children behind, the
rest of the way is that from the earlier tree to the later one. -/
theorem route_skipRightChildren {first second : Nat} (inhabited : 0 < first)
    (smaller : first < second) :
    (skipRightChildren (first - 1) (second - 1)).1 ≤
        (skipRightChildren (first - 1) (second - 1)).2 ∧
      route (skipRightChildren (first - 1) (second - 1)).1
          ((skipRightChildren (first - 1) (second - 1)).2 + 1) =
        growthRoute first second := by
  induction first using Nat.strongRecOn generalizing second with
  | ind first ih =>
      by_cases odd : first % 2 = 1
      · rw [skipRightChildren_of_even (by omega), growthRoute_of_odd odd (.inl smaller),
          Nat.sub_add_cancel (by omega)]
        exact ⟨by omega, rfl⟩
      · have node : (first - 1) / 2 = first / 2 - 1 := by omega
        have last : (second - 1) / 2 = (second + 1) / 2 - 1 := by omega
        rw [skipRightChildren_of_odd (by omega), node, last,
          growthRoute_of_even (by omega) inhabited (by omega)]
        exact ih (first / 2) (by omega) (by omega) (by omega)

end VerifiableLog.Merkle
