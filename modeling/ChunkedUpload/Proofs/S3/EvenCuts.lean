import ChunkedUpload.Proofs.S3.CopyPlans
import ChunkedUpload.Proofs.S3.MachineWords

/-!
# A large object is cut evenly

What `split?` makes of an object that one copy does not take is an `EvenCut`: the pieces tile the
object, none takes more than one copy, their lengths differ by one byte at most with the longer ones
first, and fewer ranges would not do (`evenCut_pieces`). A set of ranges covers at most what their
lengths add up to (`card_le_of_covered`), so no other ranges do with less.

`Words.split?` works the pieces out in words of 64 bits, as one running start that each piece moves
on. Where piece `i` begins is never beyond the end of the object, so no step overflows, and the
pieces are those of `split?` (`Words.exists_split?`).
-/

namespace ChunkedUpload.S3.CopyRange

variable {size most : Nat}

/-! ## The pieces -/

/-- `ranges` are near-equal pieces of an object of `size` bytes, as few as there can be if none is
longer than `most`. -/
structure EvenCut (size most : Nat) (ranges : List CopyRange) : Prop where
  count : ranges.length = size ⌈/⌉ most
  first : ranges.head?.map (·.first) = some 0
  last : ranges.getLast?.map (·.last) = some (size - 1)
  nonempty : ∀ range ∈ ranges, range.first ≤ range.last
  next : ∀ (i : Nat) (hi : i + 1 < ranges.length), ranges[i + 1].first = ranges[i].last + 1
  short : ∀ range ∈ ranges, range.length ≤ most
  even : ranges.Pairwise fun range later =>
    later.length ≤ range.length ∧ range.length ≤ later.length + 1
  fewest : ∀ others : List CopyRange, (∀ range ∈ others, range.length ≤ most) →
    (∀ byte < size, ∃ range ∈ others, range.first ≤ byte ∧ byte ≤ range.last) →
    ranges.length ≤ others.length

/-- Ranges of at most `most` bytes cover no more bytes than that for each of them. -/
theorem card_le_of_covered : ∀ {others : List CopyRange} {bytes : Finset Nat},
    (∀ range ∈ others, range.length ≤ most) →
    (∀ byte ∈ bytes, ∃ range ∈ others, range.first ≤ byte ∧ byte ≤ range.last) →
    bytes.card ≤ most * others.length
  | [], bytes, _, hcovered => by
    have hnone : bytes = ∅ := Finset.eq_empty_of_forall_notMem fun byte hbyte => by
      obtain ⟨_, hrange, -⟩ := hcovered byte hbyte
      cases hrange
    rw [hnone, Finset.card_empty]
    exact Nat.zero_le _
  | range :: others, bytes, hshort, hcovered => by
    have hin : (bytes.filter fun byte => range.first ≤ byte ∧ byte ≤ range.last).card ≤ most := by
      refine Nat.le_trans (Finset.card_le_card (t := Finset.Icc range.first range.last) ?_) ?_
      · intro byte hbyte
        exact Finset.mem_Icc.2 (Finset.mem_filter.1 hbyte).2
      · rw [Nat.card_Icc]
        exact hshort range List.mem_cons_self
    have hout : (bytes.filter fun byte => ¬(range.first ≤ byte ∧ byte ≤ range.last)).card ≤
        most * others.length := by
      refine card_le_of_covered (fun r hr => hshort r (List.mem_cons_of_mem _ hr)) ?_
      intro byte hbyte
      obtain ⟨hbyte, hnot⟩ := Finset.mem_filter.1 hbyte
      obtain ⟨other, hother, hbounds⟩ := hcovered byte hbyte
      rcases List.mem_cons.1 hother with rfl | hother
      · exact absurd hbounds hnot
      · exact ⟨other, hother, hbounds⟩
    rw [← Finset.card_filter_add_card_filter_not (s := bytes)
      (fun byte => range.first ≤ byte ∧ byte ≤ range.last), List.length_cons, Nat.mul_succ]
    omega

theorem count_eq_div_add (hmost : 0 < most) :
    count size most = size / most + if 0 < size % most then 1 else 0 := by
  have hdiv := Nat.div_add_mod' size most
  have hmod := Nat.mod_lt size hmost
  rw [count, Nat.div_eq_iff hmost, Nat.add_mul]
  split <;> omega

/-- There are not more pieces than bytes. -/
theorem count_le (hmost : 0 < most) (hsize : 0 < size) : count size most ≤ size :=
  Nat.le_of_not_lt fun hless => by
    have hsome := size_div_count_pos hmost hsize
    rw [Nat.div_eq_of_lt hless] at hsome
    cases hsome

/-- An object that one copy does not take is cut evenly. -/
theorem evenCut_pieces (hmost : 0 < most) (hlarge : most < size) :
    EvenCut size most ((List.range (count size most)).map (piece size (count size most))) := by
  have hsize : 0 < size := Nat.lt_trans hmost hlarge
  have hsome := size_div_count_pos hmost hsize
  have hcount : count size most = size ⌈/⌉ most := Store.count_eq_ceilDiv hmost
  have hshort := length_piece_le hmost hsize
  have hpos : 0 < count size most := Nat.lt_of_lt_of_le Nat.two_pos (two_le_count hmost hlarge)
  constructor
  case count => rw [List.length_map, List.length_range, hcount]
  case first =>
    rw [List.head?_map, List.head?_range, if_neg hpos.ne']
    simp [piece, start]
  case last =>
    rw [List.getLast?_map, List.getLast?_range, if_neg hpos.ne']
    have hend : (piece size (count size most) (count size most - 1)).last + 1 = size := by
      rw [last_piece hsome, Nat.sub_add_cancel hpos, start_pieces hpos]
    simp only [Option.map_some, Option.some.injEq]
    omega
  case nonempty =>
    intro range hrange
    obtain ⟨index, -, rfl⟩ := List.mem_map.1 hrange
    exact first_le_last hsome
  case next =>
    intro i hi
    simp only [List.getElem_map, List.getElem_range, last_piece hsome]
    rfl
  case short =>
    intro range hrange
    obtain ⟨index, -, rfl⟩ := List.mem_map.1 hrange
    exact hshort index
  case even =>
    rw [List.pairwise_map]
    refine List.pairwise_lt_range.imp fun {i j} hlater => ?_
    rw [length_piece hsome, length_piece hsome]
    split <;> split <;> omega
  case fewest =>
    intro others hothers hcovered
    have hcard : (Finset.range size).card ≤ most * others.length :=
      card_le_of_covered hothers fun byte hbyte => hcovered byte (Finset.mem_range.1 hbyte)
    rwa [List.length_map, List.length_range, hcount, ceilDiv_le_iff_le_mul hmost,
      ← Finset.card_range size]

/-! ## The pieces in machine words -/

namespace Words

open MachineWord

/-- How many pieces there are: the quotient, and one more if it leaves a remainder. -/
def count? (size most : UInt64) : Option UInt64 := do
  let (quotient, remainder) ← divMod? size most
  if 0 < remainder then add? quotient 1 else some quotient

/-- First and last bytes of `left` more pieces, the first of which is number `index` and begins at
`start`. The first `extra` pieces are one byte longer than `base`. -/
def walk? (base extra : UInt64) : (left : Nat) → (index start : UInt64) →
    Option (List (UInt64 × UInt64))
  | 0, _, _ => some []
  | left + 1, index, start => do
    let length ← add? base (if index < extra then 1 else 0)
    let next ← add? start length
    let last ← sub? next 1
    let index ← add? index 1
    return (start, last) :: (← walk? base extra left index next)

/-- The pieces of an object, if it is not copied whole. There is no result if a step overflows or
divides by zero. -/
def split? (size most : UInt64) : Option (Option (List (UInt64 × UInt64))) :=
  if size ≤ most then some none
  else do
    let count ← count? size most
    let (base, extra) ← divMod? size count
    return some (← walk? base extra count.toNat 0 0)

/-- The range that two words stand for. -/
def range (words : UInt64 × UInt64) : CopyRange := ⟨words.1.toNat, words.2.toNat⟩

variable {size most base extra : UInt64} {pieces : Nat}

/-- There are not more pieces than bytes, so their number fits. -/
theorem exists_count? (hmost : 0 < most.toNat) (hsize : 0 < size.toNat) :
    ∃ pieces, count? size most = some pieces ∧
      pieces.toNat = CopyRange.count size.toNat most.toNat := by
  have hcount : CopyRange.count size.toNat most.toNat =
      size.toNat / most.toNat + if 0 < size.toNat % most.toNat then 1 else 0 :=
    count_eq_div_add hmost
  have hfits : CopyRange.count size.toNat most.toNat < UInt64.size :=
    Nat.lt_of_le_of_lt (count_le hmost hsize) size.toNat_lt_size
  have hremainder : (0 < size % most) = (0 < size.toNat % most.toNat) := by
    rw [UInt64.lt_iff_toNat_lt, UInt64.toNat_mod]
    rfl
  simp only [count?, divMod?_eq hmost, Option.bind_eq_bind, Option.bind_some, hremainder]
  split at hcount
  · rename_i hmore
    obtain ⟨pieces, hsum, hpieces⟩ := exists_add? (a := size / most) (b := 1)
      (by rw [UInt64.toNat_div, UInt64.toNat_one]; omega)
    rw [UInt64.toNat_div, UInt64.toNat_one] at hpieces
    exact ⟨pieces, (if_pos hmore).trans hsum, hpieces.trans hcount.symm⟩
  · rename_i hmore
    exact ⟨size / most, if_neg hmore, (UInt64.toNat_div _ _).trans hcount.symm⟩

/-- The loop makes the pieces from `index` on, if it begins where the first of them does. -/
theorem exists_walk? (hpieces : 0 < size.toNat / pieces) (hbase : base.toNat = size.toNat / pieces)
    (hextra : extra.toNat = size.toNat % pieces) : ∀ (left : Nat) (index first : UInt64),
    index.toNat + left = pieces → first.toNat = start size.toNat pieces index.toNat →
    ∃ words, walk? base extra left index first = some words ∧
      words.map range = (List.range' index.toNat left).map (piece size.toNat pieces) := by
  have hpos : 0 < pieces := Nat.pos_of_ne_zero fun hzero => by simp [hzero] at hpieces
  have hfew : pieces ≤ size.toNat := Nat.le_of_not_lt fun hlt => by
    rw [Nat.div_eq_of_lt hlt] at hpieces
    cases hpieces
  have hsize := size.toNat_lt_size
  intro left
  induction left with
  | zero => exact fun _ _ _ _ => ⟨[], rfl, rfl⟩
  | succ left ih =>
    intro index first hindex hfirst
    -- what each step comes to is no larger than where the next piece begins
    have hstart : start size.toNat pieces (index.toNat + 1) = first.toNat +
        (size.toNat / pieces + if index.toNat < size.toNat % pieces then 1 else 0) := by
      rw [hfirst, start_succ]
    have hinside : start size.toNat pieces (index.toNat + 1) ≤ size.toNat := by
      refine Nat.le_trans (start_mono (j := pieces) (by omega)) ?_
      rw [start_pieces hpos]
    have hone : (if index < extra then (1 : UInt64) else 0).toNat =
        if index.toNat < size.toNat % pieces then 1 else 0 := by
      rw [← hextra, apply_ite UInt64.toNat]
      rfl
    obtain ⟨length, hlength, hlengthNat⟩ := exists_add? (a := base)
      (b := if index < extra then 1 else 0) (by omega)
    obtain ⟨next, hnext, hnextNat⟩ := exists_add? (a := first) (b := length) (by omega)
    obtain ⟨last, hlast, hlastNat⟩ := exists_sub? (a := next) (b := 1) (by
      rw [UInt64.toNat_one]
      omega)
    obtain ⟨after, hafter, hafterNat⟩ := exists_add? (a := index) (b := 1) (by
      rw [UInt64.toNat_one]
      omega)
    rw [UInt64.toNat_one] at hlastNat hafterNat
    have hnextStart : next.toNat = start size.toNat pieces (index.toNat + 1) := by omega
    obtain ⟨words, hwords, hrange⟩ := ih after next (by omega) (by rw [hafterNat, hnextStart])
    refine ⟨(first, last) :: words, ?_, ?_⟩
    · simp only [walk?, hlength, hnext, hlast, hafter, hwords, Option.bind_eq_bind,
        Option.bind_some, Option.pure_def]
    · rw [List.map_cons, hrange, hafterNat, List.range'_succ, List.map_cons, List.cons.injEq]
      refine ⟨?_, rfl⟩
      rw [range, piece, hfirst, hlastNat, hnextStart]

/-- In machine words no step fails, and the pieces are the same. -/
theorem exists_split? (hmost : 0 < most.toNat) : ∃ words, split? size most = some words ∧
    words.map (·.map range) = CopyRange.split? size.toNat most.toNat := by
  rcases Nat.lt_or_ge most.toNat size.toNat with hlarge | hsmall
  · have hwhole : ¬ size ≤ most := Nat.not_le.2 hlarge
    have hsize : 0 < size.toNat := Nat.zero_lt_of_lt hlarge
    obtain ⟨pieces, hcount, hpieces⟩ := exists_count? hmost hsize
    have hsome := size_div_count_pos hmost hsize
    rw [← hpieces] at hsome
    have hpos : 0 < pieces.toNat := Nat.pos_of_ne_zero fun hzero => by simp [hzero] at hsome
    obtain ⟨words, hwords, hrange⟩ := exists_walk? hsome (UInt64.toNat_div size pieces)
      (UInt64.toNat_mod size pieces) pieces.toNat 0 0 (Nat.zero_add _) (by simp [start])
    refine ⟨some words, ?_, ?_⟩
    · simp only [split?, if_neg hwhole, hcount, divMod?_eq hpos, hwords, Option.bind_eq_bind,
        Option.bind_some, Option.pure_def]
    · rw [Option.map_some, hrange, UInt64.toNat_zero, hpieces, ← List.range_eq_range']
      exact (if_neg (Nat.not_le.2 hlarge)).symm
  · exact ⟨none, if_pos hsmall, (if_pos hsmall).symm⟩

end Words

/-- **A large object is cut evenly.** An object that one copy takes is not cut. Any other one is cut
in pieces that tile it, none longer than one copy takes, of lengths that differ by one byte at most,
the longer ones first; and fewer ranges would not do. In words of 64 bits, with the running start
that each piece moves on, no step overflows or divides by zero, and the pieces are the same. -/
theorem split_evenly (size most : UInt64) (hmost : 1 ≤ most) :
    (split? size.toNat most.toNat = none ↔ size ≤ most) ∧
    (most < size → ∃ ranges, split? size.toNat most.toNat = some ranges ∧
      EvenCut size.toNat most.toNat ranges) ∧
    ∃ words, Words.split? size most = some words ∧
      words.map (·.map Words.range) = split? size.toNat most.toNat := by
  refine ⟨⟨fun hnone => ?_, fun hsmall => if_pos hsmall⟩, fun hlarge => ?_,
    Words.exists_split? hmost⟩
  · by_cases hsmall : size.toNat ≤ most.toNat
    · exact hsmall
    · rw [split?, if_neg hsmall] at hnone
      cases hnone
  · exact ⟨_, if_neg (Nat.not_le.2 hlarge), evenCut_pieces hmost hlarge⟩

/-- The largest size there is, in two pieces. -/
theorem split_evenly_largest :
    let size : UInt64 := 18446744073709551615
    let most : UInt64 := 9223372036854775808
    1 ≤ most ∧ most < size ∧
      (∃ ranges, split? size.toNat most.toNat = some ranges ∧
        EvenCut size.toNat most.toNat ranges) ∧
      Words.split? size most =
        some (some [(0, 9223372036854775807), (9223372036854775808, 18446744073709551614)]) := by
  intro size most
  have hmost : 1 ≤ most := by decide
  have hlarge : most < size := by decide
  exact ⟨hmost, hlarge, (split_evenly size most hmost).2.1 hlarge, by decide⟩

end ChunkedUpload.S3.CopyRange
