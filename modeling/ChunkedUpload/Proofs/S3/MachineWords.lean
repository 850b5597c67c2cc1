/-!
# Checked arithmetic of machine words

Sizes are unsigned numbers of 64 bits and part numbers signed ones of 32 bits. Here an operation has
a result only if the exact one fits, so a calculation that has one never overflows.
-/

namespace ChunkedUpload.MachineWord

/-- The sum, if it is below `2^64`. -/
def add? (a b : UInt64) : Option UInt64 :=
  if BitVec.uaddOverflow a.toBitVec b.toBitVec then none else some (a + b)

/-- The difference, if it is not negative. -/
def sub? (a b : UInt64) : Option UInt64 :=
  if BitVec.usubOverflow a.toBitVec b.toBitVec then none else some (a - b)

/-- Quotient and remainder, unless the divisor is zero. -/
def divMod? (a b : UInt64) : Option (UInt64 × UInt64) := if b = 0 then none else some (a / b, a % b)

/-- The difference of signed numbers, if it has 32 bits. -/
def signedSub? (a b : Int32) : Option Int32 :=
  if BitVec.ssubOverflow a.toBitVec b.toBitVec then none else some (a - b)

/-- The larger of two signed numbers. -/
def signedMax (a b : Int32) : Int32 := if a < b then b else a

/-- The smaller of two signed numbers. -/
def signedMin (a b : Int32) : Int32 := if a < b then a else b

/-- The number shifted by `places`, if there are so many places and no set bit is lost. -/
def shiftLeft? (a : UInt64) (places : Int32) : Option UInt64 :=
  if 0 ≤ places ∧ places < 64 ∧ a.toNat <<< places.toNatClampNeg < UInt64.size then
    some (a <<< UInt64.ofNat places.toNatClampNeg)
  else none

variable {a b : UInt64}

theorem exists_add? (h : a.toNat + b.toNat < UInt64.size) :
    ∃ c, add? a b = some c ∧ c.toNat = a.toNat + b.toNat := by
  have hfits : ¬ BitVec.uaddOverflow a.toBitVec b.toBitVec = true := by
    simpa [BitVec.uaddOverflow] using h
  exact ⟨a + b, if_neg hfits, BitVec.toNat_add_of_not_uaddOverflow hfits⟩

theorem exists_sub? (h : b.toNat ≤ a.toNat) :
    ∃ c, sub? a b = some c ∧ c.toNat = a.toNat - b.toNat := by
  have hfits : ¬ BitVec.usubOverflow a.toBitVec b.toBitVec = true := by
    simpa [BitVec.usubOverflow] using h
  exact ⟨a - b, if_neg hfits, BitVec.toNat_sub_of_not_usubOverflow hfits⟩

theorem divMod?_eq (h : 0 < b.toNat) : divMod? a b = some (a / b, a % b) :=
  if_neg fun hzero => by simp [hzero] at h

theorem exists_signedSub? {a b : Int32} (hleast : Int32.minValue.toInt ≤ a.toInt - b.toInt)
    (hmost : a.toInt - b.toInt ≤ Int32.maxValue.toInt) :
    ∃ c, signedSub? a b = some c ∧ c.toInt = a.toInt - b.toInt := by
  have hfits : ¬ BitVec.ssubOverflow a.toBitVec b.toBitVec = true := by
    rw [Int32.toInt_minValue] at hleast
    rw [Int32.toInt_maxValue] at hmost
    simp only [BitVec.ssubOverflow, Int32.toInt_toBitVec, Bool.or_eq_true, decide_eq_true_eq]
    omega
  exact ⟨a - b, if_neg hfits, BitVec.toInt_sub_of_not_ssubOverflow hfits⟩

theorem toInt_signedMax (a b : Int32) : (signedMax a b).toInt = max a.toInt b.toInt := by
  unfold signedMax
  split
  case isTrue h => exact (Int.max_eq_right (Int.le_of_lt (Int32.lt_iff_toInt_lt.1 h))).symm
  case isFalse h =>
    exact (Int.max_eq_left (Int.not_lt.1 fun hless => h (Int32.lt_iff_toInt_lt.2 hless))).symm

theorem toInt_signedMin (a b : Int32) : (signedMin a b).toInt = min a.toInt b.toInt := by
  unfold signedMin
  split
  case isTrue h => exact (Int.min_eq_left (Int.le_of_lt (Int32.lt_iff_toInt_lt.1 h))).symm
  case isFalse h =>
    exact (Int.min_eq_right (Int.not_lt.1 fun hless => h (Int32.lt_iff_toInt_lt.2 hless))).symm

theorem exists_shiftLeft? {places : Int32} (hpos : 0 ≤ places) (hplaces : places < 64)
    (hfits : a.toNat <<< places.toNatClampNeg < UInt64.size) :
    ∃ c, shiftLeft? a places = some c ∧ c.toNat = a.toNat <<< places.toNatClampNeg := by
  refine ⟨_, if_pos ⟨hpos, hplaces, hfits⟩, ?_⟩
  have hless : places.toNatClampNeg < 64 := by
    have hint : places.toInt < 64 := Int32.lt_iff_toInt_lt.1 hplaces
    show places.toInt.toNat < 64
    omega
  rw [UInt64.toNat_shiftLeft, UInt64.toNat_ofNat_of_lt' (Nat.lt_trans hless (by decide)),
    Nat.mod_eq_of_lt hless]
  exact Nat.mod_eq_of_lt hfits

end ChunkedUpload.MachineWord
