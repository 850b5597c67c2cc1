import ChunkedUpload.Cleanup.Batch
import ChunkedUpload.Proofs.Part.Names

/-!
# Which texts are read as names of parts

A run of digits without a zero in front is the numeral of its value (`repr_ofDigitChars`), so
`Decimal.canonical?` takes the numerals of positive numbers and nothing else. A text is read as the
number of a later part just if it is the name of that part (`number?_eq_some_iff`): reading and
naming are inverse to each other (`reading_inverts_naming`), and what a sweep may delete was named
so.
-/

namespace ChunkedUpload

namespace Decimal

theorem digitChar_of_isDigit {c : Char} (h : c.isDigit = true) :
    c.toNat - '0'.toNat < 10 ∧ Nat.digitChar (c.toNat - '0'.toNat) = c := by
  have hbounds : 48 ≤ c.toNat ∧ c.toNat ≤ 57 := by
    simpa [Char.isDigit, UInt32.le_iff_toNat_le] using h
  have hless : c.toNat - 48 < 10 := by omega
  refine ⟨hless, Char.toNat_inj.1 ?_⟩
  show (Nat.digitChar (c.toNat - 48)).toNat = c.toNat
  rw [Nat.toNat_digitChar_of_lt_ten hless]
  omega

/-- Digits behind a numeral go on with it; the numeral is kept apart as its value so far. -/
theorem toDigits_ofDigitChars {cs : List Char} (hdigits : ∀ c ∈ cs, c.isDigit = true) {sofar : Nat}
    (hsofar : 0 < sofar) :
    Nat.toDigits 10 (Nat.ofDigitChars 10 cs sofar) = Nat.toDigits 10 sofar ++ cs := by
  induction cs generalizing sofar with
  | nil => rw [Nat.ofDigitChars_nil, List.append_nil]
  | cons c cs ih =>
    obtain ⟨hless, hchar⟩ := digitChar_of_isDigit (hdigits c List.mem_cons_self)
    have hdigits' : ∀ d ∈ cs, d.isDigit = true := fun d hd => hdigits d (List.mem_cons_of_mem _ hd)
    rw [Nat.ofDigitChars_cons, ih hdigits' (by omega),
      ← Nat.toDigits_append_toDigits (by decide) hsofar hless, Nat.toDigits_of_lt_base hless, hchar,
      List.append_assoc, List.singleton_append]

/-- A run of digits that does not start with a zero is the numeral of its value. -/
theorem repr_ofDigitChars {cs : List Char} (hsome : cs ≠ []) (hfirst : cs.head? ≠ some '0')
    (hdigits : ∀ c ∈ cs, c.isDigit = true) :
    0 < Nat.ofDigitChars 10 cs 0 ∧ (Nat.ofDigitChars 10 cs 0).repr.toList = cs := by
  cases cs with
  | nil => exact absurd rfl hsome
  | cons c cs =>
    obtain ⟨hless, hchar⟩ := digitChar_of_isDigit (hdigits c List.mem_cons_self)
    have hpos : 0 < c.toNat - '0'.toNat := Nat.pos_of_ne_zero fun hzero => hfirst <| by
      rw [List.head?_cons, ← hchar, hzero]
      rfl
    have hwritten := toDigits_ofDigitChars (fun d hd => hdigits d (List.mem_cons_of_mem _ hd)) hpos
    rw [Nat.toDigits_of_lt_base hless, hchar, List.singleton_append] at hwritten
    rw [Nat.ofDigitChars_cons, Nat.mul_zero, Nat.zero_add, Nat.toList_repr]
    refine ⟨Nat.pos_of_ne_zero fun hzero => hfirst ?_, hwritten⟩
    rw [← hwritten, hzero, Nat.toDigits_zero]
    rfl

/-- The canonical numerals are those that are written for positive numbers. -/
theorem canonical?_eq_some_iff {cs : List Char} {n : Nat} :
    canonical? cs = some n ↔ 0 < n ∧ cs = n.repr.toList := by
  refine ⟨fun h => ?_, fun ⟨hn, hcs⟩ => hcs ▸ canonical?_repr hn⟩
  unfold canonical? digits? at h
  split at h
  · cases h
  · rename_i hfirst
    split at h
    · rename_i hdigits
      obtain ⟨hpos, hwritten⟩ := repr_ofDigitChars hdigits.1 hfirst (List.all_eq_true.1 hdigits.2)
      rw [Option.some.inj h] at hpos hwritten
      exact ⟨hpos, hwritten.symm⟩
    · cases h

end Decimal

namespace Part

variable {destination text : String}

theorem rest?_eq_some_iff {head text rest : List Char} :
    rest? head text = some rest ↔ text = head ++ rest :=
  ⟨eq_append_of_rest?, fun h => h ▸ rest?_append head rest⟩

/-- A text is read as the number of a later part just if it is the name of that part. -/
theorem number?_eq_some_iff {n : Nat} : number? destination text = some n ↔
    2 ≤ n ∧ n ≤ maxNumber ∧ text = name destination n := by
  refine ⟨fun h => ?_, fun ⟨htwo, hmax, htext⟩ => htext ▸ number?_name htwo hmax⟩
  simp only [number?, Option.bind_eq_bind, Option.bind_eq_some_iff, rest?_eq_some_iff,
    Decimal.canonical?_eq_some_iff] at h
  obtain ⟨_, htext, _, rfl, number, ⟨-, rfl⟩, hrange⟩ := h
  split at hrange
  · rename_i hnumber
    obtain rfl : number = n := Option.some.inj hrange
    refine ⟨hnumber.1, hnumber.2, String.toList_injective ?_⟩
    rw [htext, toList_name (show number ≠ 1 by omega)]
  · cases hrange

theorem isLater_iff : isLater destination text = true ↔
    ∃ n, 2 ≤ n ∧ n ≤ maxNumber ∧ text = name destination n := by
  simp only [isLater, Option.isSome_iff_exists, number?_eq_some_iff]

/-- **Reading inverts naming.** Whatever the destination is, and whatever the text, it is read as
number `n` just if `n` is that of a later part and the text is the name of this part. So the later
parts are those that have such a name. The destination is none of them, and no batch of its parts
lets a sweep delete it. -/
theorem reading_inverts_naming (destination text : String) :
    (∀ n, number? destination text = some n ↔
      2 ≤ n ∧ n ≤ maxNumber ∧ text = name destination n) ∧
    (isLater destination text = true ↔
      ∃ n, 2 ≤ n ∧ n ≤ maxNumber ∧ text = name destination n) ∧
    isLater destination destination = false ∧
    ∀ bucket names, destination ∉ (Cleanup.Batch.mk bucket destination names).deletable := by
  refine ⟨fun n => number?_eq_some_iff, isLater_iff, isLater_self, fun bucket names hmem => ?_⟩
  have hlater : isLater destination destination = true := (List.mem_filter.1 hmem).2
  rw [isLater_self] at hlater
  cases hlater

end Part

end ChunkedUpload
