import ChunkedUpload.Proofs.Part.Reading
import Mathlib.Data.List.Nodup

/-!
# When two parts have the same name

Two later parts have the same name only as the same part of one destination (`name_later_inj`), and
two first parts only if they are of one destination. So a name that two parts share is a destination
and that of a later part (`name_eq_name_iff`): an upload to `a.chunk7` and one to `a` meet at part 7
of `a`. The parts of one upload never meet (`nodup_names`).
-/

namespace ChunkedUpload.Part

variable {destination other : String} {n k : Nat}

/-- The number of a part. -/
def IsNumber (n : Nat) : Prop := 1 ≤ n ∧ n ≤ maxNumber

instance (n : Nat) : Decidable (IsNumber n) := inferInstanceAs (Decidable (1 ≤ n ∧ n ≤ maxNumber))

theorem isLater_of_two_le (htwo : 2 ≤ n) (hmax : n ≤ maxNumber) :
    isLater destination (name destination n) = true := by
  rw [isLater_name (Nat.le_of_succ_le htwo) hmax]
  exact decide_eq_true htwo

/-- The name of a later part tells its destination and its number. -/
theorem name_later_inj (hn : 2 ≤ n) (hn' : n ≤ maxNumber) (hk : 2 ≤ k) (hk' : k ≤ maxNumber)
    (h : name destination n = name other k) : destination = other ∧ n = k := by
  have hlater : isLater destination (name other k) = true := h ▸ isLater_of_two_le hn hn'
  obtain rfl : destination = other := eq_of_isLater hlater (isLater_of_two_le hk hk')
  refine ⟨rfl, ?_⟩
  apply (name_inj (Nat.le_of_succ_le hn) (Nat.le_of_succ_le hk) hn' hk').1
  exact h

/-- Two parts have one name only if they are the same part, or if one of them is the first part of a
destination that the other one has as its name. -/
theorem name_eq_name_iff (hn : IsNumber n) (hk : IsNumber k) :
    name destination n = name other k ↔
      destination = other ∧ n = k ∨
      n = 1 ∧ 2 ≤ k ∧ destination = name other k ∨
      k = 1 ∧ 2 ≤ n ∧ other = name destination n := by
  obtain ⟨hn, hn'⟩ := hn
  obtain ⟨hk, hk'⟩ := hk
  constructor
  · intro h
    rcases Nat.eq_or_lt_of_le hn with rfl | hn2 <;> rcases Nat.eq_or_lt_of_le hk with rfl | hk2
    · exact .inl ⟨h, rfl⟩
    · exact .inr (.inl ⟨rfl, hk2, h⟩)
    · exact .inr (.inr ⟨rfl, hn2, h.symm⟩)
    · exact .inl (name_later_inj hn2 hn' hk2 hk' h)
  · intro h
    rcases h with ⟨rfl, rfl⟩ | ⟨rfl, -, h⟩ | ⟨rfl, -, h⟩
    · rfl
    · exact h
    · exact h.symm

/-- No two parts of one upload have the same name. -/
theorem nodup_names {count : Nat} (hmax : count ≤ maxNumber) : (names destination count).Nodup := by
  apply List.Nodup.map_on
  · intro i hi j hj h
    rw [List.mem_range] at hi hj
    have hnumber := (name_inj (by omega) (by omega) (by omega) (by omega)).1 h
    exact Nat.succ.inj hnumber
  · exact List.nodup_range

/-- Two destinations share the name of a part just if one of them is that of a later part of the
other. -/
theorem exists_shared_name_iff (hdistinct : destination ≠ other) :
    (∃ n k, IsNumber n ∧ IsNumber k ∧ name destination n = name other k) ↔
      isLater other destination = true ∨ isLater destination other = true := by
  constructor
  · rintro ⟨n, k, hn, hk, h⟩
    rcases (name_eq_name_iff hn hk).1 h with ⟨hsame, -⟩ | ⟨-, htwo, hname⟩ | ⟨-, htwo, hname⟩
    · exact absurd hsame hdistinct
    · left
      rw [hname]
      exact isLater_of_two_le htwo hk.2
    · right
      rw [hname]
      exact isLater_of_two_le htwo hn.2
  · have hfirst : IsNumber 1 := by decide
    rintro (hlater | hlater)
    · obtain ⟨k, htwo, hmax, hname⟩ := isLater_iff.1 hlater
      exact ⟨1, k, hfirst, ⟨Nat.le_of_succ_le htwo, hmax⟩, hname⟩
    · obtain ⟨n, htwo, hmax, hname⟩ := isLater_iff.1 hlater
      exact ⟨n, 1, ⟨Nat.le_of_succ_le htwo, hmax⟩, hfirst, hname.symm⟩

/-- **Parts collide only through a destination.** Two parts have the same name just if they are the
same part of one destination, or if one is the first part of a destination that is the name of the
other, a later part. So the parts of one upload have different names, and two destinations share the
name of a part just if one of them is the name of a later part of the other. -/
theorem collide_through_destination (destination other : String) :
    (∀ n k, IsNumber n → IsNumber k →
      (name destination n = name other k ↔
        destination = other ∧ n = k ∨
        n = 1 ∧ 2 ≤ k ∧ destination = name other k ∨
        k = 1 ∧ 2 ≤ n ∧ other = name destination n)) ∧
    (∀ count ≤ maxNumber, (names destination count).Nodup) ∧
    (destination ≠ other →
      ((∃ n k, IsNumber n ∧ IsNumber k ∧ name destination n = name other k) ↔
        isLater other destination = true ∨ isLater destination other = true)) :=
  ⟨fun _ _ => name_eq_name_iff, fun _ => nodup_names, exists_shared_name_iff⟩

/-- The destination `a.chunk7` is the name of part 7 of `a`, and not that of part 71. -/
theorem collide_through_destination_lookalikes :
    IsNumber 1 ∧ IsNumber 7 ∧ IsNumber 71 ∧ "a.chunk7" ≠ "a" ∧
      name "a.chunk7" 1 = name "a" 7 ∧ name "a.chunk7" 1 ≠ name "a" 71 ∧
      (names "a.chunk7" 32).Nodup ∧
      ∃ n k, IsNumber n ∧ IsNumber k ∧ name "a.chunk7" n = name "a" k := by
  have hone : IsNumber 1 := by decide
  have hseven : IsNumber 7 := by decide
  have hmore : IsNumber 71 := by decide
  have hdistinct : "a.chunk7" ≠ "a" := by decide
  have hname : "a.chunk7" = name "a" 7 := by decide
  obtain ⟨hnames, hnodup, hshared⟩ := collide_through_destination "a.chunk7" "a"
  have hlater : isLater "a" "a.chunk7" = true := by decide
  refine ⟨hone, hseven, hmore, hdistinct, ?_, ?_, hnodup 32 (by decide), ?_⟩
  · exact (hnames 1 7 hone hseven).2 (.inr (.inl ⟨rfl, by decide, hname⟩))
  · intro h
    rcases (hnames 1 71 hone hmore).1 h with ⟨-, hnumber⟩ | ⟨-, -, hlong⟩ | ⟨hnumber, -⟩
    · cases hnumber
    · exact absurd hlong (by decide)
    · cases hnumber
  · exact (hshared hdistinct).2 (.inl hlater)

end ChunkedUpload.Part
