/-!
# Entries by key

Maps are kept as lists of entries, of which the first one of a key counts (`List.lookup`).
-/

namespace ChunkedUpload

theorem mem_of_lookup {κ α : Type} [BEq κ] [LawfulBEq κ] {key : κ} {value : α}
    {entries : List (κ × α)} (h : entries.lookup key = some value) : (key, value) ∈ entries := by
  obtain ⟨front, back, rfl, -⟩ := List.lookup_eq_some_iff.1 h
  exact List.mem_append_right front List.mem_cons_self

/-- What is left when the entries of one key are taken out. -/
theorem lookup_filter_ne {κ α : Type} [DecidableEq κ] [BEq κ] [LawfulBEq κ] (a b : κ)
    (entries : List (κ × α)) :
    (entries.filter (·.1 ≠ a)).lookup b = if b = a then none else entries.lookup b := by
  induction entries with
  | nil => exact (ite_self none).symm
  | cons entry entries ih =>
    obtain ⟨key, value⟩ := entry
    by_cases hkey : key = a
    · rw [List.filter_cons_of_neg (by simp [hkey]), ih, hkey]
      split
      · rfl
      · rename_i hother
        rw [List.lookup_cons, beq_false_of_ne hother]
    · rw [List.filter_cons_of_pos (by simp [hkey]), List.lookup_cons, List.lookup_cons, ih]
      by_cases hb : b = key
      · rw [hb, if_neg hkey, if_neg hkey]
      · rw [beq_false_of_ne hb]

end ChunkedUpload
