import ChunkedUpload.Part.Name

/-!
# Reading part names back

A numeral as `Nat.repr` writes it is read back by `Decimal.canonical?` (`canonical?_repr`), so the
number of a later part is read back from its name (`number?_name`). The parts of one destination
have names of their own (`name_inj`), and just those from part 2 on are later parts of it
(`isLater_name`). No name is that of a later part of two destinations (`eq_of_isLater`).
-/

namespace ChunkedUpload

namespace Decimal

theorem head?_toDigits {n : Nat} (hn : 0 < n) : (Nat.toDigits 10 n).head? ≠ some '0' := by
  induction n using Nat.strongRecOn with
  | _ n ih =>
    by_cases hlt : n < 10
    · rw [Nat.toDigits_of_lt_base hlt]
      have hdigit : ∀ k < 10, 0 < k → Nat.digitChar k ≠ '0' := by decide
      simpa using hdigit n hlt hn
    · rw [Nat.toDigits_of_base_le (by decide) (by omega), List.head?_append,
        List.head?_eq_some_head Nat.toDigits_ne_nil, Option.some_or,
        ← List.head?_eq_some_head Nat.toDigits_ne_nil]
      exact ih (n / 10) (by omega) (by omega)

theorem isDigit_of_mem_repr {n : Nat} {c : Char} (h : c ∈ n.repr.toList) : c.isDigit = true := by
  rw [Nat.toList_repr] at h
  exact Nat.isDigit_of_mem_toDigits (by decide) (by decide) h

theorem repr_inj {n k : Nat} (h : n.repr = k.repr) : n = k := by
  have hdigits := congrArg String.toList h
  rw [Nat.toList_repr, Nat.toList_repr] at hdigits
  have hread := congrArg (fun cs => Nat.ofDigitChars 10 cs 0) hdigits
  simpa using hread

/-- The numeral of a positive number is canonical. -/
theorem canonical?_repr {n : Nat} (hn : 0 < n) : canonical? n.repr.toList = some n := by
  have hdigits : n.repr.toList.all Char.isDigit = true :=
    List.all_eq_true.2 fun _ hc => isDigit_of_mem_repr hc
  rw [Nat.toList_repr] at hdigits
  simp only [canonical?, digits?, Nat.toList_repr, head?_toDigits hn, hdigits, ↓reduceIte,
    ne_eq, Nat.toDigits_ne_nil, not_false_eq_true, and_self, Nat.ofDigitChars_ten_toDigits]

end Decimal

namespace Part

variable {destination : String}

theorem rest?_append (head rest : List Char) : rest? head (head ++ rest) = some rest := by
  have hfront : head.isPrefixOf (head ++ rest) = true := List.isPrefixOf_iff_prefix.2 ⟨rest, rfl⟩
  rw [rest?, if_pos hfront, List.drop_left]

theorem name_one : name destination 1 = destination := rfl

theorem toList_name {n : Nat} (hn : n ≠ 1) :
    (name destination n).toList = destination.toList ++ (marker.toList ++ n.repr.toList) := by
  rw [name, if_neg hn, String.toList_append, String.toList_append, List.append_assoc]

/-- The number of a later part is read back from its name. -/
theorem number?_name {n : Nat} (h2 : 2 ≤ n) (hmax : n ≤ maxNumber) :
    number? destination (name destination n) = some n := by
  simp only [number?, toList_name (show n ≠ 1 by omega), rest?_append,
    Decimal.canonical?_repr (show 0 < n by omega), Option.bind_eq_bind, Option.bind_some]
  exact if_pos ⟨h2, hmax⟩

theorem number?_self : number? destination destination = none := by
  have hrest : rest? destination.toList destination.toList = some [] := by
    simpa using rest?_append destination.toList []
  simp only [number?, hrest, Option.bind_eq_bind, Option.bind_some]
  rfl

/-- The destination is no later part of itself. -/
theorem isLater_self : isLater destination destination = false := by
  rw [isLater, number?_self]
  rfl

/-- Names tell the parts of one destination apart. -/
theorem name_inj {n k : Nat} (hn : 1 ≤ n) (hk : 1 ≤ k) (hn' : n ≤ maxNumber) (hk' : k ≤ maxNumber) :
    name destination n = name destination k ↔ n = k := by
  refine ⟨fun h => ?_, fun h => h ▸ rfl⟩
  have hnumber := congrArg (number? destination) h
  rcases Nat.eq_or_lt_of_le hn with rfl | hn2 <;> rcases Nat.eq_or_lt_of_le hk with rfl | hk2
  · rfl
  · rw [name_one, number?_self, number?_name hk2 hk'] at hnumber
    cases hnumber
  · rw [name_one, number?_self, number?_name hn2 hn'] at hnumber
    cases hnumber
  · rw [number?_name hn2 hn', number?_name hk2 hk'] at hnumber
    exact Option.some.inj hnumber

theorem name_ne_empty (h : destination ≠ "") (number : Nat) : name destination number ≠ "" := by
  rw [name]
  split
  · exact h
  · intro hempty
    have hlength := congrArg String.length hempty
    simp [marker] at hlength

/-- The names of the first `count` parts. -/
def names (destination : String) (count : Nat) : List String :=
  (List.range count).map fun i => name destination (i + 1)

theorem names_succ (count : Nat) :
    names destination (count + 1) = names destination count ++ [name destination (count + 1)] := by
  rw [names, List.range_succ, List.map_append]
  rfl

theorem length_names (count : Nat) : (names destination count).length = count := by
  rw [names, List.length_map, List.length_range]

theorem getElem_names {count i : Nat} (hi : i < (names destination count).length) :
    (names destination count)[i] = name destination (i + 1) := by
  simp only [names, List.getElem_map, List.getElem_range]

theorem mem_names {count : Nat} {text : String} :
    text ∈ names destination count ↔ ∃ i < count, name destination (i + 1) = text := by
  simp only [names, List.mem_map, List.mem_range]

/-- Later parts are those from number 2 on. -/
theorem isLater_name {n : Nat} (hn : 1 ≤ n) (hmax : n ≤ maxNumber) :
    isLater destination (name destination n) = decide (2 ≤ n) := by
  rcases Nat.eq_or_lt_of_le hn with rfl | h2
  · rw [name_one, isLater, number?_self]
    rfl
  · rw [isLater, number?_name h2 hmax]
    exact (decide_eq_true h2).symm

/-- Of the parts of an upload, the later ones may be deleted. -/
theorem filter_isLater_names {count : Nat} (hmax : count ≤ maxNumber) :
    (names destination count).filter (isLater destination) =
      (List.range' 2 (count - 1)).map (name destination) := by
  induction count with
  | zero => rfl
  | succ count ih =>
    rw [names_succ, List.filter_append, ih (Nat.le_of_succ_le hmax)]
    cases count with
    | zero => simp [isLater_name (Nat.le_refl 1) hmax]
    | succ before =>
      have hlater : isLater destination (name destination (before + 1 + 1)) = true := by
        rw [isLater_name (Nat.succ_pos _) hmax, decide_eq_true (by omega)]
      simp only [Nat.add_sub_cancel, List.range'_1_concat, List.map_append, List.map_cons,
        List.map_nil, List.filter_cons_of_pos hlater, List.filter_nil]
      rw [Nat.add_comm 2 before]

/-! ## Names of later parts -/

theorem eq_append_of_rest? {head text rest : List Char} (h : rest? head text = some rest) :
    text = head ++ rest := by
  unfold rest? at h
  split at h
  · rename_i hfront
    obtain ⟨tail, rfl⟩ := List.isPrefixOf_iff_prefix.1 hfront
    rw [List.drop_left, Option.some.injEq] at h
    rw [h]
  · cases h

/-- The name of a later part is the destination, the marker and digits. -/
theorem exists_digits_of_isLater {text : String} (h : isLater destination text = true) :
    ∃ digits, (∀ c ∈ digits, c.isDigit = true) ∧
      text.toList = destination.toList ++ (marker.toList ++ digits) := by
  unfold isLater number? at h
  cases hrest : rest? destination.toList text.toList with
  | none => simp [hrest] at h
  | some rest =>
    cases hnumeral : rest? marker.toList rest with
    | none => simp [hrest, hnumeral] at h
    | some digits =>
      refine ⟨digits, ?_, by rw [eq_append_of_rest? hrest, eq_append_of_rest? hnumeral]⟩
      cases hnumber : Decimal.canonical? digits with
      | none => simp [hrest, hnumeral, hnumber] at h
      | some number =>
        unfold Decimal.canonical? Decimal.digits? at hnumber
        split at hnumber
        · cases hnumber
        · split at hnumber
          · rename_i hdigits
            exact List.all_eq_true.1 hdigits.2
          · cases hnumber

/-- A name is that of a later part of one destination at most. -/
theorem eq_of_isLater {other text : String} (h : isLater destination text = true)
    (h' : isLater other text = true) : destination = other := by
  obtain ⟨digits, hdigits, htext⟩ := exists_digits_of_isLater h
  obtain ⟨digits', hdigits', htext'⟩ := exists_digits_of_isLater h'
  -- from the end on, the digits go as far as the last letter of the marker
  have htail : ∀ (front : List Char) {digits : List Char}, (∀ c ∈ digits, c.isDigit = true) →
      ((front ++ (marker.toList ++ digits)).reverse.takeWhile Char.isDigit).reverse = digits := by
    intro front digits hdigits
    have hmarker : marker.toList.reverse = 'k' :: ['n', 'u', 'h', 'c', '.'] := by decide
    rw [List.reverse_append, List.reverse_append, hmarker, List.append_assoc, List.cons_append,
      List.takeWhile_append_of_pos (fun c hc => hdigits c (List.mem_reverse.1 hc)),
      List.takeWhile_cons_of_neg (by decide), List.append_nil, List.reverse_reverse]
  have hsame : digits = digits' := by
    rw [← htail destination.toList hdigits, ← htext, htext', htail other.toList hdigits']
  rw [htext, hsame] at htext'
  exact String.toList_injective (List.append_cancel_right htext')

end Part

end ChunkedUpload
