import ChunkedUpload.Proofs.S3.Multipart
import Mathlib.Tactic.Ring

/-!
# How long the pieces of a large copy are

Pieces follow each other without a gap, so each has the length by which the starts differ
(`length_piece`). An object that needs more than one copy is cut in near halves at worst
(`le_two_mul_quotient`): every piece has at least half of what one copy takes, and not more than one
copy takes (`length_piece_bounds`). So each of its ranges is large enough for a part that others
follow (`mem_rangesOf`), and a copy of an object is small only if it is one of a small object
(`forall_copyLength_iff`).
-/

namespace ChunkedUpload.S3

namespace CopyRange

variable {size most pieces index : Nat}

/-- How many bytes a range has; its last byte is one of them. -/
def length (r : CopyRange) : Nat := r.last + 1 - r.first

theorem start_succ : start size pieces (index + 1) =
    start size pieces index + (size / pieces + if index < size % pieces then 1 else 0) := by
  rw [start, start, Nat.succ_mul]
  split <;> omega

theorem start_mono {i j : Nat} (h : i ≤ j) : start size pieces i ≤ start size pieces j := by
  have hmul : i * (size / pieces) ≤ j * (size / pieces) := Nat.mul_le_mul_right _ h
  rw [start, start]
  omega

/-- Where another piece would begin, the object ends. -/
theorem start_pieces (h : 0 < pieces) : start size pieces pieces = size := by
  rw [start, Nat.min_eq_right (Nat.le_of_lt (Nat.mod_lt size h)), Nat.div_add_mod]

/-- No piece is empty where there are not more pieces than bytes. -/
theorem length_piece (h : 0 < size / pieces) : (piece size pieces index).length =
    size / pieces + if index < size % pieces then 1 else 0 := by
  show start size pieces (index + 1) - 1 + 1 - start size pieces index = _
  rw [start_succ]
  omega

theorem last_piece (h : 0 < size / pieces) :
    (piece size pieces index).last + 1 = start size pieces (index + 1) := by
  show start size pieces (index + 1) - 1 + 1 = _
  rw [start_succ]
  omega

theorem first_le_last (h : 0 < size / pieces) :
    (piece size pieces index).first ≤ (piece size pieces index).last := by
  show start size pieces index ≤ start size pieces (index + 1) - 1
  rw [start_succ]
  omega

/-- The pieces are as few as hold all bytes. -/
theorem count_spec (hmost : 0 < most) (hsize : 0 < size) :
    size ≤ count size most * most ∧ (count size most - 1) * most < size := by
  have hdiv : most * count size most + (size + (most - 1)) % most = size + (most - 1) :=
    Nat.div_add_mod (size + (most - 1)) most
  have hmod := Nat.mod_lt (size + (most - 1)) hmost
  rw [Nat.mul_comm] at hdiv
  rw [Nat.sub_mul, Nat.one_mul]
  omega

theorem two_le_count (hmost : 0 < most) (hlarge : most < size) : 2 ≤ count size most := by
  rw [count, Nat.le_div_iff_mul_le hmost]
  omega

/-- There are not more pieces than bytes. -/
theorem size_div_count_pos (hmost : 0 < most) (hsize : 0 < size) :
    0 < size / count size most := by
  obtain ⟨hall, hfew⟩ := count_spec hmost hsize
  have hcount : count size most - 1 ≤ (count size most - 1) * most :=
    Nat.le_mul_of_pos_right _ hmost
  have hpos : 0 < count size most := Nat.pos_of_ne_zero fun hzero => by
    rw [hzero, Nat.zero_mul] at hall
    omega
  exact Nat.div_pos (by omega) hpos

/-- No piece is longer than one copy takes. -/
theorem length_piece_le (hmost : 0 < most) (hsize : 0 < size) (index : Nat) :
    (piece size (count size most) index).length ≤ most := by
  rw [length_piece (size_div_count_pos hmost hsize)]
  have hall := (count_spec hmost hsize).1
  generalize count size most = pieces at hall
  have hdiv := Nat.div_add_mod size pieces
  split
  · -- a longer piece shows that pieces of `most` bytes would hold more than there is
    rename_i hindex
    have hless : pieces * (size / pieces) < pieces * most := by
      rw [Nat.mul_comm pieces most, Nat.mul_comm most]
      omega
    exact Nat.lt_of_mul_lt_mul_left hless
  · rw [Nat.add_zero]
    exact Nat.div_le_of_le_mul hall

/-- `more + 2` pieces of `most` bytes are the fewest that hold the object, and `quotient` is what
each of them gets of it, rounded down. -/
structure Shared (size most more quotient : Nat) : Prop where
  few : (more + 1) * most < size
  enough : size ≤ (more + 2) * most
  lower : quotient * (more + 2) ≤ size
  upper : size < (quotient + 1) * (more + 2)

theorem exists_shared (hmost : 0 < most) (hlarge : most < size) :
    ∃ more, Shared size most more (size / count size most) := by
  obtain ⟨more, hmore⟩ := Nat.exists_eq_add_of_le' (two_le_count hmost hlarge)
  obtain ⟨henough, hfew⟩ := count_spec hmost (Nat.lt_trans hmost hlarge)
  rw [hmore] at henough hfew
  refine ⟨more, hfew, henough, ?_, ?_⟩
  · rw [hmore]
    exact Nat.div_mul_le_self size (more + 2)
  · rw [hmore, Nat.add_mul, Nat.one_mul]
    exact Nat.lt_div_mul_add (Nat.succ_pos _)

/-- The shortest piece has half of what one copy takes at least. -/
theorem le_two_mul_quotient (hmost : 0 < most) (hlarge : most < size) :
    most ≤ 2 * (size / count size most) := by
  obtain ⟨more, hshared⟩ := exists_shared hmost hlarge
  generalize size / count size most = quotient at hshared
  apply Nat.le_of_not_lt
  intro hshort
  -- pieces that short would hold less than all copies but one
  have hfew : (more + 1) * (2 * quotient + 1) < size :=
    Nat.lt_of_le_of_lt (Nat.mul_le_mul_left _ hshort) hshared.few
  have hexpand : (more + 1) * (2 * quotient + 1) + 1 =
      (quotient + 1) * (more + 2) + quotient * more := by ring
  have hupper := hshared.upper
  omega

/-- The pieces of an object that is too large for one copy. -/
theorem length_piece_bounds (hmost : 0 < most) (hlarge : most < size) (index : Nat) :
    most / 2 ≤ (piece size (count size most) index).length ∧
      (piece size (count size most) index).length ≤ most := by
  have hsize : 0 < size := Nat.lt_trans hmost hlarge
  have hleast := le_two_mul_quotient hmost hlarge
  refine ⟨?_, length_piece_le hmost hsize index⟩
  rw [length_piece (size_div_count_pos hmost hsize)]
  omega

/-- Ranges that follow each other from byte `first` on and end before byte `size`. None is empty or
longer than `most`. -/
inductive Tiles (most : Nat) : Nat → List CopyRange → Nat → Prop
  | nil (size : Nat) : Tiles most size [] size
  | cons {range : CopyRange} {ranges : List CopyRange} {size : Nat} : range.first ≤ range.last →
      range.length ≤ most → Tiles most (range.last + 1) ranges size →
      Tiles most range.first (range :: ranges) size

/-- The pieces are the whole object, one after another. -/
theorem tiles_pieces (hmost : 0 < most) (hsize : 0 < size) :
    Tiles most 0 ((List.range (count size most)).map (piece size (count size most))) size := by
  have hmosts (index : Nat) := length_piece_le hmost hsize index
  have hsome := size_div_count_pos hmost hsize
  generalize count size most = pieces at hmosts hsome
  have htiles : ∀ (left index : Nat), Tiles most (start size pieces index)
      ((List.range' index left).map (piece size pieces)) (start size pieces (index + left)) := by
    intro left
    induction left with
    | zero => exact fun index => .nil _
    | succ left ih =>
      intro index
      rw [List.range'_succ, List.map_cons, Nat.add_comm left, ← Nat.add_assoc]
      exact .cons (first_le_last hsome) (hmosts index) (last_piece hsome ▸ ih (index + 1))
  have hall := htiles pieces 0
  have hend : start size pieces pieces = size :=
    start_pieces (Nat.pos_of_ne_zero fun hzero => by simp [hzero] at hsome)
  rw [Nat.zero_add, hend, start, Nat.zero_mul, Nat.zero_min] at hall
  rwa [List.range_eq_range']

/-- The ranges end where the object does. -/
theorem Tiles.le {first : Nat} {ranges : List CopyRange} (h : Tiles most first ranges size) :
    first ≤ size := by
  induction h with
  | nil => exact Nat.le_refl _
  | cons hfirst _ _ ih => exact Nat.le_trans hfirst (Nat.le_of_succ_le ih)

theorem Tiles.last_lt {first : Nat} {ranges : List CopyRange} (h : Tiles most first ranges size) :
    ∀ range ∈ ranges, range.last < size := by
  induction h with
  | nil => nofun
  | cons _ _ hrest ih => exact List.forall_mem_cons.2 ⟨hrest.le, ih⟩

end CopyRange

namespace Store

variable {size : Nat}

theorem rangesOf_of_lt (h : mostCopied < size) : rangesOf size =
    (List.range (CopyRange.count size mostCopied)).map fun index =>
      some (CopyRange.piece size (CopyRange.count size mostCopied) index) := by
  rw [rangesOf, CopyRange.split?, if_neg (Nat.not_le.2 h)]
  exact List.map_map

theorem rangesOf_ne_nil (size : Nat) : rangesOf size ≠ [] := by
  rcases Nat.lt_or_ge mostCopied size with hlarge | hsmall
  · have hcount := CopyRange.two_le_count (by decide) hlarge
    rw [rangesOf_of_lt hlarge]
    simp only [ne_eq, List.map_eq_nil_iff, List.range_eq_nil]
    omega
  · rw [rangesOf_of_le hsmall]
    exact List.cons_ne_nil _ _

/-- An object is copied whole if one copy takes it. Otherwise each of its ranges would do for a part
that others follow. -/
theorem mem_rangesOf {range : Option CopyRange} (h : range ∈ rangesOf size) :
    (range = none ∧ size ≤ mostCopied) ∨ ∃ piece, range = some piece ∧
      leastPartSize ≤ piece.length ∧ piece.length ≤ mostCopied := by
  rcases Nat.lt_or_ge mostCopied size with hlarge | hsmall
  · rw [rangesOf_of_lt hlarge] at h
    obtain ⟨index, -, rfl⟩ := List.mem_map.1 h
    obtain ⟨hleast, hmost⟩ := CopyRange.length_piece_bounds (by decide) hlarge index
    exact .inr ⟨_, rfl, Nat.le_trans (by decide) hleast, hmost⟩
  · rw [rangesOf_of_le hsmall] at h
    exact .inl ⟨List.mem_singleton.1 h, hsmall⟩

/-- How many bytes a copy is of, if the object has `size` bytes. -/
def copyLength (size : Nat) : Option CopyRange → Nat
  | none => size
  | some range => range.length

theorem copyLength_le {range : Option CopyRange} (h : range ∈ rangesOf size) :
    copyLength size range ≤ mostCopied := by
  rcases mem_rangesOf h with ⟨rfl, hsmall⟩ | ⟨piece, rfl, -, hmost⟩
  · exact hsmall
  · exact hmost

/-- No range reaches beyond the end of the object. -/
theorem length_excerpt {range : Option CopyRange} (h : range ∈ rangesOf size) {content : Bytes}
    (hcontent : content.length = size) :
    (Server.excerpt range content).length = copyLength size range := by
  rcases Nat.lt_or_ge mostCopied size with hlarge | hsmall
  · have htiles := CopyRange.tiles_pieces (show 0 < mostCopied by decide)
      (Nat.lt_trans (by decide) hlarge)
    rw [rangesOf_of_lt hlarge, ← Function.comp_def some, ← List.map_map] at h
    obtain ⟨piece, hpiece, rfl⟩ := List.mem_map.1 h
    have hlast := htiles.last_lt piece hpiece
    show ((content.take (piece.last + 1)).drop piece.first).length = piece.length
    rw [List.length_drop, List.length_take, CopyRange.length]
    omega
  · rw [rangesOf_of_le hsmall, List.mem_singleton] at h
    rw [h]
    exact hcontent

/-- The copies of an object are large if it is. -/
theorem forall_copyLength_iff : (∀ range ∈ rangesOf size, leastPartSize ≤ copyLength size range) ↔
    leastPartSize ≤ size := by
  rcases Nat.lt_or_ge mostCopied size with hlarge | hsmall
  · refine iff_of_true (fun range hrange => ?_) (Nat.le_trans (by decide) (Nat.le_of_lt hlarge))
    rcases mem_rangesOf hrange with ⟨-, hsmall⟩ | ⟨piece, rfl, hleast, -⟩
    · exact absurd hsmall (Nat.not_le.2 hlarge)
    · exact hleast
  · rw [rangesOf_of_le hsmall, List.forall_mem_singleton]
    rfl

/-- They are large but for the last one in any case. -/
theorem le_copyLength_of_mem_dropLast {range : Option CopyRange}
    (h : range ∈ (rangesOf size).dropLast) : leastPartSize ≤ copyLength size range := by
  rcases mem_rangesOf ((List.dropLast_sublist _).subset h) with ⟨-, hsmall⟩ | ⟨piece, rfl, hleast, -⟩
  · rw [rangesOf_of_le hsmall] at h
    cases h
  · exact hleast

end Store

end ChunkedUpload.S3
