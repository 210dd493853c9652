import VerifiableLog.Store.Table

/-!
What an insertion does to a table: what is found in it afterwards and, for a new key, where the new
entry stands.
-/

namespace VerifiableLog.Table

theorem find?_insertSorted (key value sought : Bytes) (entries : List (Bytes × Bytes)) :
    ((insertSorted key value entries).find? fun entry => entry.1 = sought).map Prod.snd =
      if key = sought then some value
      else (entries.find? fun entry => entry.1 = sought).map Prod.snd := by
  induction entries with
  | nil => by_cases found : key = sought <;> simp [insertSorted, found]
  | cons entry entries ih =>
      rw [insertSorted]
      by_cases replaced : key = entry.1
      · by_cases found : key = sought
        · simp [← replaced, found]
        · simp [← replaced, found]
      · rw [if_neg replaced]
        by_cases before : key.below entry.1 = true
        · rw [if_pos before]
          by_cases found : key = sought <;> simp [found]
        · rw [if_neg before, List.find?_cons, List.find?_cons]
          by_cases here : entry.1 = sought
          · have other : key ≠ sought := by
              rw [← here]
              exact replaced
            simp [here, other]
          · simpa [here] using ih

theorem find?_insert (table : Table) (key value sought : Bytes) :
    (table.insert key value).find? sought =
      if key = sought then some value else table.find? sought :=
  find?_insertSorted key value sought table.entries

def insertIfAbsent (table : Table) (key value : Bytes) : Table :=
  if (table.find? key).isSome then table else table.insert key value

theorem find?_insertIfAbsent (table : Table) (key value sought : Bytes) :
    (table.insertIfAbsent key value).find? sought =
      (table.find? sought).or (if key = sought then some value else none) := by
  rw [insertIfAbsent]
  cases present : table.find? key with
  | none =>
      rw [if_neg (by simp), find?_insert]
      by_cases found : key = sought
      · rw [if_pos found, if_pos found, ← found, present]
        rfl
      · rw [if_neg found, if_neg found, Option.or_none]
  | some old =>
      rw [if_pos (by simp)]
      by_cases found : key = sought
      · rw [← found, present]
        rfl
      · rw [if_neg found, Option.or_none]

theorem entries_insert_of_last {table : Table} {key : Bytes} (value : Bytes)
    (last : ∀ entry ∈ table.entries, key ≠ entry.1 ∧ key.below entry.1 = false) :
    (table.insert key value).entries = table.entries ++ [(key, value)] := by
  obtain ⟨entries⟩ := table
  simp only [insert]
  induction entries with
  | nil => rfl
  | cons entry entries ih =>
      have here := last entry List.mem_cons_self
      rw [insertSorted, if_neg here.1, if_neg (by simp [here.2]),
        ih fun entry later => last entry (List.mem_cons_of_mem _ later), List.cons_append]

theorem entries_insert_of_absent {table : Table} {key : Bytes} (value : Bytes)
    (absent : ∀ entry ∈ table.entries, key ≠ entry.1) :
    ∃ before after, table.entries = before ++ after ∧
      (table.insert key value).entries = before ++ (key, value) :: after := by
  obtain ⟨entries⟩ := table
  simp only [insert]
  induction entries with
  | nil => exact ⟨[], [], rfl, rfl⟩
  | cons entry entries ih =>
      rw [insertSorted, if_neg (absent entry List.mem_cons_self)]
      by_cases first : key.below entry.1 = true
      · rw [if_pos first]
        exact ⟨[], entry :: entries, rfl, rfl⟩
      · obtain ⟨before, after, split, inserted⟩ :=
          ih fun entry later => absent entry (List.mem_cons_of_mem _ later)
        rw [if_neg first, inserted, split]
        exact ⟨entry :: before, after, rfl, rfl⟩

end VerifiableLog.Table
