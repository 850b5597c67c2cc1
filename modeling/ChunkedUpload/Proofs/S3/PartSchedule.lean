import Mathlib.Data.Nat.Find
import ChunkedUpload.Proofs.S3.MachineWords
import ChunkedUpload.Proofs.S3.StreamParts

/-!
# How far the schedule of parts goes

The parts of one size are a run of a thousand (`streamPartSize_run`), so what the first parts hold
has a closed form: whole runs add up like a geometric series (`capacity_runs`). All parts that a
service takes are ten such runs, so a stream can be sent just if it is no longer than these hold
(`schedule_reach`).

`Words.partSize?` works a part size out in machine words. Part numbers before 1 count as 1, and
there is a last doubling, so neither the subtraction nor the shift overflows, whatever the number is
(`Words.exists_partSize?`).
-/

namespace ChunkedUpload.S3

/-! ## The closed form -/

variable {k j : Nat}

/-- The parts of run `k` have one size. -/
theorem streamPartSize_run (hk : k ≤ mostDoublings) (hj : j < partsPerDoubling) :
    streamPartSize ((k * partsPerDoubling + j : Nat) + 1) = leastPartSize <<< k := by
  have hdoublings : doublings ((k * partsPerDoubling + j : Nat) + 1) = k := by
    rw [doublings]
    rw [partsPerDoubling] at *
    omega
  rw [streamPartSize, hdoublings]

/-- Within a run, each part adds the same. -/
theorem capacity_run (hk : k ≤ mostDoublings) (hj : j ≤ partsPerDoubling) :
    capacity (k * partsPerDoubling + j) =
      capacity (k * partsPerDoubling) + j * (leastPartSize <<< k) := by
  induction j with
  | zero => rw [Nat.add_zero, Nat.zero_mul, Nat.add_zero]
  | succ j ih =>
    rw [← Nat.add_assoc, capacity, ih (Nat.le_of_succ_le hj), streamPartSize_run hk hj,
      Nat.succ_mul, Nat.add_assoc]

/-- One more run of the least size would make what whole runs hold a power of two of such runs. -/
theorem capacity_runs (hk : k ≤ mostDoublings + 1) :
    capacity (k * partsPerDoubling) + partsPerDoubling * leastPartSize =
      partsPerDoubling * (leastPartSize <<< k) := by
  induction k with
  | zero => simp [capacity]
  | succ k ih =>
    have hdoubled : leastPartSize <<< (k + 1) = leastPartSize <<< k + leastPartSize <<< k := by
      rw [Nat.shiftLeft_succ, Nat.two_mul]
    have hbefore := ih (Nat.le_of_succ_le hk)
    rw [Nat.succ_mul, capacity_run (Nat.le_of_succ_le_succ hk) (Nat.le_refl _), hdoubled,
      Nat.mul_add]
    omega

theorem capacity_mostParts : capacity mostParts = 1000 * 1023 * leastPartSize := by
  have hruns := capacity_runs (Nat.le_refl (mostDoublings + 1))
  have hparts : (mostDoublings + 1) * partsPerDoubling = mostParts := by decide
  have hlast : partsPerDoubling * (leastPartSize <<< (mostDoublings + 1)) =
      1000 * 1023 * leastPartSize + partsPerDoubling * leastPartSize := by decide
  rw [hparts] at hruns
  omega

theorem le_capacity (parts : Nat) : parts ≤ capacity parts := by
  induction parts with
  | zero => exact Nat.zero_le _
  | succ parts ih =>
    have hpos := streamPartSize_pos (parts + 1)
    rw [capacity]
    omega

/-- A stream needs no more parts than a service takes just if all of these hold it. -/
theorem exists_isLeast_capacity (length : Nat) :
    ∃ parts : Nat, IsLeast {n | length ≤ capacity n} parts ∧
      (checkPartNumber parts = .ok () ↔ length ≤ capacity mostParts) := by
  have hsome : ∃ parts, length ≤ capacity parts := ⟨length, le_capacity length⟩
  refine ⟨Nat.find hsome, ⟨Nat.find_spec hsome, fun n hn => Nat.find_min' hsome hn⟩, ?_⟩
  rw [checkPartNumber_eq_ok_iff, Int.ofNat_le]
  exact ⟨fun hfew => Nat.le_trans (Nat.find_spec hsome) (capacity_strictMono.monotone hfew),
    fun hlength => Nat.find_min' hsome hlength⟩

/-! ## Part sizes in machine words -/

theorem streamPartSize_le_largest (number : Int) :
    streamPartSize number ≤ leastPartSize <<< mostDoublings := by
  have hdoublings : doublings number ≤ mostDoublings := Nat.min_le_right _ _
  rw [streamPartSize, Nat.shiftLeft_eq, Nat.shiftLeft_eq]
  exact Nat.mul_le_mul_left _ (Nat.pow_le_pow_right Nat.two_pos hdoublings)

namespace Words

open MachineWord

/-- The size of part `number`. There is no result if a step overflows. -/
def partSize? (number : Int32) : Option UInt64 := do
  let before ← signedSub? (signedMax number 1) 1
  let steps := signedMin (before / Int32.ofNat partsPerDoubling) (Int32.ofNat mostDoublings)
  shiftLeft? (UInt64.ofNat leastPartSize) steps

/-- The least size can be shifted as often as it doubles. -/
theorem exists_partSize_of_steps {number : Int} {steps : Int32}
    (hsteps : steps.toInt = (doublings number : Int)) :
    ∃ size, shiftLeft? (UInt64.ofNat leastPartSize) steps = some size ∧
      size.toNat = streamPartSize number := by
  have hmost : doublings number ≤ 9 := Nat.min_le_right _ _
  have hplaces : steps.toNatClampNeg = doublings number := by
    show steps.toInt.toNat = _
    rw [hsteps, Int.toNat_natCast]
  have hleast : (UInt64.ofNat leastPartSize).toNat = leastPartSize := rfl
  have hfits : streamPartSize number < UInt64.size :=
    Nat.lt_of_le_of_lt (streamPartSize_le_largest number) (by decide)
  have hshift : (UInt64.ofNat leastPartSize).toNat <<< steps.toNatClampNeg =
      streamPartSize number := by
    rw [hplaces, hleast, streamPartSize]
  rw [← hshift]
  refine exists_shiftLeft? (Int32.le_iff_toInt_le.2 ?_) (Int32.lt_iff_toInt_lt.2 ?_)
    (hshift ▸ hfits)
  · show (0 : Int) ≤ steps.toInt
    omega
  · show steps.toInt < (64 : Int)
    omega

/-- No step fails, and the size is the same. -/
theorem exists_partSize? (number : Int32) :
    ∃ size, partSize? number = some size ∧ size.toNat = streamPartSize number.toInt := by
  have hmost := number.toInt_lt
  have hfirst : (signedMax number 1).toInt = max number.toInt 1 := toInt_signedMax number 1
  obtain ⟨before, hbefore, hbeforeInt⟩ := exists_signedSub? (a := signedMax number 1) (b := 1)
    (by rw [hfirst, Int32.toInt_minValue, Int32.toInt_one]; omega)
    (by rw [hfirst, Int32.toInt_maxValue, Int32.toInt_one]; omega)
  rw [hfirst, Int32.toInt_one] at hbeforeInt
  have hquotient : (before / Int32.ofNat partsPerDoubling).toInt = before.toInt / 1000 := by
    rw [Int32.toInt_div_of_ne_right _ _ (by decide), ← Int.tdiv_eq_ediv_of_nonneg (by omega)]
    rfl
  have hsteps : (signedMin (before / Int32.ofNat partsPerDoubling)
      (Int32.ofNat mostDoublings)).toInt = (doublings number.toInt : Int) := by
    rw [toInt_signedMin, hquotient, hbeforeInt, doublings, partsPerDoubling]
    show min _ (9 : Int) = ((min _ 9 : Nat) : Int)
    omega
  obtain ⟨size, hsize, hvalue⟩ := exists_partSize_of_steps hsteps
  refine ⟨size, ?_, hvalue⟩
  rw [partSize?, hbefore]
  exact hsize

end Words

/-! ## The reach of the schedule -/

/-- **The schedule reaches as far as its parts hold, and only grows.** The fewest parts that hold a
stream are within the limit of a service just if the stream has at most `1000 * 1023 * 5` MiB. Part
sizes start at 5 MiB, end at 2.5 GiB and do not fall, whatever the part numbers are. In machine
words no step overflows for any part number. A buffer of one part's size grows to exactly that of a
later part. -/
theorem schedule_reach {a b : Int32} (h : a ≤ b) :
    (∀ length, ∃ parts : Nat, IsLeast {n | length ≤ capacity n} parts ∧
      (checkPartNumber parts = .ok () ↔ length ≤ 1000 * 1023 * (5 * 1024 * 1024))) ∧
    (5 * 1024 * 1024 ≤ streamPartSize a.toInt ∧
      streamPartSize a.toInt ≤ streamPartSize b.toInt ∧
      streamPartSize b.toInt ≤ 2560 * 1024 * 1024) ∧
    (∀ number, ∃ size, Words.partSize? number = some size ∧
      size.toNat = streamPartSize number.toInt) ∧
    ∀ buffer : Reader.Buffer, buffer.size = streamPartSize a.toInt →
      (buffer.grow (streamPartSize b.toInt)).size = streamPartSize b.toInt := by
  have hgrows : streamPartSize a.toInt ≤ streamPartSize b.toInt :=
    streamPartSize_le (Int32.le_iff_toInt_le.1 h)
  refine ⟨fun length => ?_, ⟨leastPartSize_le _, hgrows, streamPartSize_le_largest _⟩,
    Words.exists_partSize?, fun buffer hsize => ?_⟩
  · rw [← leastPartSize, ← capacity_mostParts]
    exact exists_isLeast_capacity length
  · exact Nat.max_eq_right (hsize ▸ hgrows)

/-- The least and the largest part number that a machine word holds. -/
theorem schedule_reach_extremes :
    Int32.minValue ≤ Int32.maxValue ∧
    (5 * 1024 * 1024 ≤ streamPartSize Int32.minValue.toInt ∧
      streamPartSize Int32.minValue.toInt ≤ streamPartSize Int32.maxValue.toInt ∧
      streamPartSize Int32.maxValue.toInt ≤ 2560 * 1024 * 1024) ∧
    (Reader.Buffer.mk (5 * 1024 * 1024) []).size = streamPartSize Int32.minValue.toInt ∧
    ((Reader.Buffer.mk (5 * 1024 * 1024) []).grow (streamPartSize Int32.maxValue.toInt)).size =
      streamPartSize Int32.maxValue.toInt := by
  have hle : Int32.minValue ≤ Int32.maxValue := by decide
  have hsize : (Reader.Buffer.mk (5 * 1024 * 1024) []).size =
      streamPartSize Int32.minValue.toInt := by decide
  exact ⟨hle, (schedule_reach hle).2.1, hsize, (schedule_reach hle).2.2.2 _ hsize⟩

end ChunkedUpload.S3
