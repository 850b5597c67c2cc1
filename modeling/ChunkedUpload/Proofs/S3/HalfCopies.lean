import ChunkedUpload.Proofs.S3.EvenCuts

/-!
# How short the pieces of a large copy are

The last piece is the shortest, and it is as long as the quotient of size and count, so the quotient
decides whether all pieces are `OverHalf` of what one copy takes (`overHalf_pieces_iff`). It is half
of that at least, and just half for a `Tie` of the sizes (`two_mul_quotient_eq_iff`).

Such a tie cannot be cut any better: the lengths of ranges that tile the object add up to its size
(`sum_length_of_tiles`), so wherever some tiling has long ranges only, the quotient is long too
(`lt_two_mul_quotient_of_tiles`).
-/

namespace ChunkedUpload.S3.CopyRange

variable {size most : Nat}

/-- Every range is longer than half of `most`. -/
def OverHalf (most : Nat) (ranges : List CopyRange) : Prop :=
  ∀ range ∈ ranges, most < 2 * range.length

instance (most : Nat) (ranges : List CopyRange) : Decidable (OverHalf most ranges) :=
  inferInstanceAs (Decidable (∀ range ∈ ranges, most < 2 * range.length))

/-- An even `most` is exceeded by one byte, or `most` is two and the size is odd. -/
def Tie (size most : Nat) : Prop := 2 ∣ most ∧ (size = most + 1 ∨ most = 2 ∧ ¬ 2 ∣ size)

instance (size most : Nat) : Decidable (Tie size most) :=
  inferInstanceAs (Decidable (2 ∣ most ∧ (size = most + 1 ∨ most = 2 ∧ ¬ 2 ∣ size)))

/-! ## The shortest piece -/

/-- No piece is shorter than the last one. -/
theorem overHalf_pieces_iff (hmost : 0 < most) (hlarge : most < size) :
    OverHalf most ((List.range (count size most)).map (piece size (count size most))) ↔
      most < 2 * (size / count size most) := by
  have hsome := size_div_count_pos hmost (Nat.lt_trans hmost hlarge)
  have hcount := two_le_count hmost hlarge
  constructor
  · intro hover
    have hlast : count size most - 1 < count size most := by omega
    have hlong := hover _ (List.mem_map_of_mem (List.mem_range.2 hlast))
    have hmod : size % count size most < count size most := Nat.mod_lt size (by omega)
    rw [length_piece hsome, if_neg (by omega), Nat.add_zero] at hlong
    exact hlong
  · intro hlong range hrange
    obtain ⟨index, -, rfl⟩ := List.mem_map.1 hrange
    rw [length_piece hsome]
    omega

/-- A piece of just half of what one copy takes makes a tie. -/
theorem tie_of_shared {more quotient : Nat} (hpos : 0 < quotient)
    (h : Shared size (2 * quotient) more quotient) : Tie size (2 * quotient) := by
  obtain ⟨hfew, -, -, hupper⟩ := h
  have hexpand : (more + 1) * (2 * quotient) = 2 * (quotient * more) + 2 * quotient := by ring
  have hexpand' : (quotient + 1) * (more + 2) = quotient * more + more + 2 * quotient + 2 := by ring
  have hsmall : quotient * more ≤ 1 * more := by omega
  refine ⟨Nat.dvd_mul_right 2 quotient, ?_⟩
  rcases Nat.eq_zero_or_pos more with rfl | hmore
  · left
    omega
  · right
    have hone : quotient = 1 :=
      Nat.le_antisymm (Nat.le_of_mul_le_mul_right hsmall hmore) hpos
    subst hone
    omega

/-- For a tie the shortest piece has no more than half. -/
theorem two_mul_quotient_le {more quotient : Nat} (hmost : 0 < most)
    (h : Shared size most more quotient) (htie : Tie size most) : 2 * quotient ≤ most := by
  obtain ⟨hfew, henough, hlower, -⟩ := h
  obtain ⟨hdvd, rfl | ⟨rfl, hodd⟩⟩ := htie
  · -- one byte more than one copy takes makes two pieces
    have htwo : more = 0 := by
      apply Nat.eq_zero_of_not_pos
      intro hmore
      have hcopies : 2 * most ≤ (more + 1) * most := Nat.mul_le_mul_right most (by omega)
      omega
    subst htwo
    omega
  · -- the pieces cannot all have two bytes
    have hless : quotient * (more + 2) < 2 * (more + 2) := by omega
    have hquotient : quotient < 2 := Nat.lt_of_mul_lt_mul_right hless
    omega

theorem two_mul_quotient_eq_iff (hmost : 0 < most) (hlarge : most < size) :
    2 * (size / count size most) = most ↔ Tie size most := by
  obtain ⟨more, hshared⟩ := exists_shared hmost hlarge
  have hleast := le_two_mul_quotient hmost hlarge
  generalize size / count size most = quotient at hshared hleast
  constructor
  · intro hhalf
    subst hhalf
    exact tie_of_shared (by omega) hshared
  · intro htie
    exact Nat.le_antisymm (two_mul_quotient_le hmost hshared htie) hleast

/-! ## Other ways of cutting -/

/-- Ranges that tile the object have as many bytes together as it has. -/
theorem sum_length_of_tiles {first : Nat} {ranges : List CopyRange}
    (h : Tiles most first ranges size) : first + (ranges.map length).sum = size := by
  induction h with
  | nil => rfl
  | cons hsome _ _ ih =>
    rw [List.map_cons, List.sum_cons, length]
    omega

theorem length_le_of_tiles {first : Nat} {ranges : List CopyRange}
    (h : Tiles most first ranges size) : ∀ bytes ∈ ranges.map length, bytes ≤ most := by
  induction h with
  | nil => simp
  | cons _ hshort _ ih =>
    rw [List.map_cons, List.forall_mem_cons]
    exact ⟨hshort, ih⟩

/-- If an object can be cut so that all ranges are long, then the fewest pieces are long. -/
theorem lt_two_mul_quotient_of_tiles (hmost : 0 < most) (hlarge : most < size)
    {others : List CopyRange} (htiles : Tiles most 0 others size) (hover : OverHalf most others) :
    most < 2 * (size / count size most) := by
  obtain ⟨more, hfew, -, -, hupper⟩ := exists_shared hmost hlarge
  generalize size / count size most = quotient at hupper
  have hsum := sum_length_of_tiles htiles
  rw [Nat.zero_add] at hsum
  apply Nat.lt_of_not_le
  intro hshort
  -- there are no fewer ranges than pieces, and each is longer than the quotient
  have hmany : more + 2 ≤ others.length := by
    have hmosts := List.sum_le_card_nsmul _ most (length_le_of_tiles htiles)
    rw [hsum, List.length_map, smul_eq_mul] at hmosts
    exact Nat.lt_of_mul_lt_mul_right (Nat.lt_of_lt_of_le hfew hmosts)
  have hlong : ∀ bytes ∈ others.map length, quotient + 1 ≤ bytes := by
    intro bytes hbytes
    obtain ⟨range, hrange, rfl⟩ := List.mem_map.1 hbytes
    have hrange := hover range hrange
    omega
  have hleast := List.card_nsmul_le_sum _ (quotient + 1) hlong
  rw [hsum, List.length_map, smul_eq_mul] at hleast
  have hpieces : (quotient + 1) * (more + 2) ≤ others.length * (quotient + 1) := by
    rw [Nat.mul_comm]
    exact Nat.mul_le_mul_right _ hmany
  omega

/-- **The pieces of a large copy have half of a copy at least.** They are all longer than half just
if the sizes are no tie, and also just if there is any way to tile the object with ranges that are
longer than half, none of them longer than one copy takes. -/
theorem longer_than_half_iff (size most : UInt64) (hmost : 1 ≤ most) (hlarge : most < size) :
    ∃ ranges words, split? size.toNat most.toNat = some ranges ∧
      Words.split? size most = some (some words) ∧ words.map Words.range = ranges ∧
      (∀ range ∈ ranges, most.toNat ≤ 2 * range.length) ∧
      (OverHalf most.toNat ranges ↔ ¬ Tie size.toNat most.toNat) ∧
      (OverHalf most.toNat ranges ↔
        ∃ others, Tiles most.toNat 0 others size.toNat ∧ OverHalf most.toNat others) := by
  have hmost : 0 < most.toNat := hmost
  have hlarge : most.toNat < size.toNat := hlarge
  have hsize : 0 < size.toNat := Nat.lt_trans hmost hlarge
  have hsplit : split? size.toNat most.toNat = some _ := if_neg (Nat.not_le.2 hlarge)
  obtain ⟨words, hwords, hrange⟩ := @Words.exists_split? size most hmost
  rw [hsplit, Option.map_eq_some_iff] at hrange
  obtain ⟨words, rfl, hrange⟩ := hrange
  have hleast := le_two_mul_quotient hmost hlarge
  refine ⟨_, words, hsplit, hwords, hrange, fun range hmem => ?_, ?_, ?_⟩
  · obtain ⟨index, -, rfl⟩ := List.mem_map.1 hmem
    rw [length_piece (size_div_count_pos hmost hsize)]
    omega
  · rw [overHalf_pieces_iff hmost hlarge, ← two_mul_quotient_eq_iff hmost hlarge]
    omega
  · refine ⟨fun hover => ⟨_, tiles_pieces hmost hsize, hover⟩, fun hothers => ?_⟩
    obtain ⟨others, htiles, hover⟩ := hothers
    rw [overHalf_pieces_iff hmost hlarge]
    exact lt_two_mul_quotient_of_tiles hmost hlarge htiles hover

/-- One byte more than two whole copies take is cut in three long pieces. -/
theorem longer_than_half_iff_threePieces :
    let size : UInt64 := 10737418241
    let most : UInt64 := 5368709120
    1 ≤ most ∧ most < size ∧ ∃ ranges, split? size.toNat most.toNat = some ranges ∧
      ranges.length = 3 ∧ OverHalf most.toNat ranges := by
  intro size most
  have hmost : 1 ≤ most := by decide
  have hlarge : most < size := by decide
  obtain ⟨ranges, -, hsplit, -, -, -, hover, -⟩ := longer_than_half_iff size most hmost hlarge
  have hthree : (split? size.toNat most.toNat).map List.length = some 3 := by decide
  rw [hsplit] at hthree
  exact ⟨hmost, hlarge, ranges, hsplit, Option.some.inj hthree, hover.2 (by decide)⟩

/-- One byte more than one whole copy takes is cut in two pieces, the second of just half a copy. -/
theorem half_a_copy :
    let size : UInt64 := 5368709121
    let most : UInt64 := 5368709120
    let ranges : List CopyRange := [⟨0, 2684354560⟩, ⟨2684354561, 5368709120⟩]
    1 ≤ most ∧ most < size ∧ split? size.toNat most.toNat = some ranges ∧
      ¬ OverHalf most.toNat ranges := by
  decide

end ChunkedUpload.S3.CopyRange
