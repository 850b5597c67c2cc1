import ChunkedUpload.Proofs.Part.Names
import ChunkedUpload.Proofs.Storage.Places

/-!
# Places of parts

The parts of one object are files in one directory: the path of a part is the one of its object with
a longer last name (`placeOf_name`). Where the key of an object is valid those of its parts are, too
(`checkKey_name`), but for one exception: behind a dot at the end, the dot of the marker makes two
in a row (`checkKey_name_dotted`).
-/

namespace ChunkedUpload

open Files (Path)

namespace Part

variable {destination : String} {number : Nat} {c : Char}

/-- The name of a later part goes on with a dot. -/
theorem toList_name_dot (h : number ≠ 1) : (name destination number).toList =
    destination.toList ++ '.' :: ("chunk".toList ++ number.repr.toList) := by
  rw [toList_name h]
  rfl

/-- Behind that dot there are no characters but letters and digits. -/
theorem not_mem_ending (hletter : c ∉ "chunk".toList) (hdigit : c.isDigit = false) :
    c ∉ "chunk".toList ++ number.repr.toList := by
  intro hmem
  rcases List.mem_append.1 hmem with hmem | hmem
  · exact hletter hmem
  · rw [Decimal.isDigit_of_mem_repr hmem] at hdigit
    cases hdigit

theorem not_mem_name (h : c ∉ destination.toList) (hletter : c ∉ ".chunk".toList)
    (hdigit : c.isDigit = false) : c ∉ (name destination number).toList := by
  by_cases hnumber : number = 1
  · rwa [hnumber, name_one]
  · rw [toList_name_dot hnumber, List.mem_append, List.mem_cons, not_or, not_or]
    have hmarker : ¬c ∈ '.' :: "chunk".toList := hletter
    rw [List.mem_cons, not_or] at hmarker
    exact ⟨h, hmarker.1, not_mem_ending hmarker.2 hdigit⟩

theorem utf8ByteSize_name_le (h : number ≤ composeLimit) :
    (name destination number).utf8ByteSize ≤ destination.utf8ByteSize + 8 := by
  have hnumeral : ∀ n ≤ composeLimit, n.repr.utf8ByteSize ≤ 2 := by decide
  have hmarker : marker.utf8ByteSize = 6 := by decide
  rw [name]
  split
  · omega
  · rw [String.utf8ByteSize_append, String.utf8ByteSize_append, hmarker]
    have := hnumeral number h
    omega

theorem utf8ByteSize_le_name (destination : String) (number : Nat) :
    destination.utf8ByteSize ≤ (name destination number).utf8ByteSize := by
  rw [name]
  split
  · exact Nat.le_refl _
  · rw [String.append_assoc, String.utf8ByteSize_append]
    exact Nat.le_add_right _ _

end Part

namespace Directory

/-! ## Paths -/

/-- What is put behind a text goes to its last piece. -/
theorem splitOn_append {r : List Char} (hr : '/' ∉ r) :
    ∀ {l last : List Char} {pre : List (List Char)}, l.splitOn '/' = pre ++ [last] →
      (l ++ r).splitOn '/' = pre ++ [last ++ r] := by
  intro l
  induction l with
  | nil =>
    intro last pre h
    obtain ⟨rfl, rfl⟩ : pre = [] ∧ last = [] := by
      cases pre with
      | nil => simpa using h.symm
      | cons piece pre => simp at h
    rw [List.nil_append, List.splitOn_eq_singleton hr]
    rfl
  | cons c l ih =>
    intro last pre h
    obtain ⟨piece, pieces, hpieces⟩ := List.exists_cons_of_ne_nil (List.splitOn_ne_nil '/' l)
    rw [List.splitOn_cons_eq_if_modifyHead, hpieces] at h
    rw [List.cons_append, List.splitOn_cons_eq_if_modifyHead]
    by_cases hc : (c == '/') = true
    · rw [if_pos hc] at h ⊢
      cases pre with
      | nil => cases (List.cons.inj h).2
      | cons front pre =>
        obtain ⟨rfl, hmore⟩ := List.cons.inj h
        rw [ih (hpieces.trans hmore)]
        rfl
    · rw [if_neg hc] at h ⊢
      cases pre with
      | nil =>
        obtain ⟨rfl, rfl⟩ := List.cons.inj h
        rw [ih (show l.splitOn '/' = [] ++ [piece] from hpieces)]
        rfl
      | cons front pre =>
        obtain ⟨rfl, rfl⟩ := List.cons.inj h
        rw [ih (show l.splitOn '/' = (piece :: pre) ++ [last] from hpieces)]
        rfl

/-- The path of a part differs from the one of its object in the last name. -/
theorem ofText_name {key last : String} {front : Path} (h : Path.ofText key = front ++ [last])
    (number : Nat) : Path.ofText (Part.name key number) = front ++ [Part.name last number] := by
  by_cases hnumber : number = 1
  · rwa [hnumber]
  · have hslash : '/' ∉ '.' :: ("chunk".toList ++ number.repr.toList) := by
      rw [List.mem_cons, not_or]
      exact ⟨by decide, Part.not_mem_ending (by decide) (by decide)⟩
    obtain ⟨pre, piece, hkey⟩ := List.eq_nil_or_concat' _ |>.resolve_left
      (List.splitOn_ne_nil '/' key.toList)
    rw [Path.ofText, hkey, List.map_append, List.map_singleton] at h
    obtain ⟨rfl, hlast⟩ := List.append_inj' h rfl
    have hpiece : (Part.name last number).toList =
        piece ++ '.' :: ("chunk".toList ++ number.repr.toList) := by
      rw [Part.toList_name_dot hnumber, ← List.singleton_inj.1 hlast, String.toList_ofList]
    rw [Path.ofText, Part.toList_name_dot hnumber, splitOn_append hslash hkey, List.map_append,
      List.map_singleton, ← hpiece, String.ofList_toList]

theorem placeOf_name {bucket key last : String} {q : Path} (h : placeOf (bucket, key) = q ++ [last])
    (hne : q ≠ []) (number : Nat) :
    placeOf (bucket, Part.name key number) = q ++ [Part.name last number] := by
  obtain ⟨first, front, rfl⟩ := List.exists_cons_of_ne_nil hne
  obtain ⟨rfl, htext⟩ := List.cons.inj h
  rw [placeOf, ofText_name htext]
  rfl

/-! ## Valid keys -/

theorem hasDoubleDot_cons (c : Char) (l : List Char) :
    hasDoubleDot (c :: l) = (decide (c = '.' ∧ l.head? = some '.') || hasDoubleDot l) := by
  by_cases h : c = '.' ∧ l.head? = some '.'
  · obtain ⟨rfl, hhead⟩ := h
    obtain ⟨l, rfl⟩ := List.head?_eq_some_iff.1 hhead
    simp [hasDoubleDot]
  · rw [decide_eq_false h, Bool.false_or, hasDoubleDot]
    rintro r rfl rfl
    exact h ⟨rfl, rfl⟩

theorem hasDoubleDot_of_not_mem {l : List Char} (h : '.' ∉ l) : hasDoubleDot l = false := by
  induction l with
  | nil => rfl
  | cons c l ih =>
    rw [List.mem_cons, not_or] at h
    rw [hasDoubleDot_cons, ih h.2, decide_eq_false fun hboth => h.1 hboth.1.symm]
    rfl

/-- One dot is put behind a text, and it is the last one. -/
theorem hasDoubleDot_append_dot (l : List Char) {r : List Char} (hr : '.' ∉ r) :
    hasDoubleDot (l ++ '.' :: r) = (hasDoubleDot l || decide (l.getLast? = some '.')) := by
  induction l with
  | nil =>
    have hhead : r.head? ≠ some '.' := fun heq => hr (List.mem_of_mem_head? heq)
    simp [hasDoubleDot_cons, hasDoubleDot_of_not_mem hr, hhead, hasDoubleDot]
  | cons c l ih =>
    rw [List.cons_append, hasDoubleDot_cons, hasDoubleDot_cons, ih]
    cases l with
    | nil => simp [hasDoubleDot]
    | cons d l => simp [List.getLast?_cons_cons, Bool.or_assoc]

variable {key : String} {number : Nat}

/-- The key of a part has two dots in a row if the one of its object ends in a dot. -/
theorem hasDoubleDot_name (h : checkKey key = .ok ()) (hnumber : number ≠ 1) :
    hasDoubleDot (Part.name key number).toList = decide (key.toList.getLast? = some '.') := by
  have hkey : hasDoubleDot key.toList = false := by
    unfold checkKey at h
    split at h
    · cases h
    · rename_i hbad
      simp only [not_or, Bool.not_eq_true] at hbad
      exact hbad.2.1
  rw [Part.toList_name_dot hnumber,
    hasDoubleDot_append_dot _ (Part.not_mem_ending (by decide) (by decide)), hkey, Bool.false_or]

/-- Later parts of a key that ends in a dot are taken for an attempt to get out. -/
theorem checkKey_name_dotted (h : checkKey key = .ok ()) (hnumber : number ≠ 1)
    (hdot : key.toList.getLast? = some '.') : checkKey (Part.name key number) =
      .error (.invalidKey ("path traversal not allowed: " ++ Part.name key number)) := by
  have hdots := hasDoubleDot_name h hnumber
  rw [decide_eq_true hdot] at hdots
  unfold checkKey
  rw [if_pos (.inr (.inl hdots))]

theorem isPlainRelative_concat {front : Path} {last other : String}
    (h : Path.isPlainRelative (front ++ [last]) = true) (hone : other ≠ ".") (htwo : other ≠ "..") :
    Path.isPlainRelative (front ++ [other]) = true := by
  cases front with
  | nil => simp [Path.isPlainRelative, Path.isAbsolute, hone, htwo]
  | cons first front =>
    simp [Path.isPlainRelative, Path.isAbsolute, htwo] at h ⊢
    exact ⟨⟨h.1.1, h.1.2⟩, h.2.1, h.2.2.1⟩

/-- All other keys of parts are valid. -/
theorem checkKey_name (h : checkKey key = .ok ())
    (hdot : number = 1 ∨ key.toList.getLast? ≠ some '.') :
    checkKey (Part.name key number) = .ok () := by
  by_cases hnumber : number = 1
  · rwa [hnumber]
  · have hlast := hdot.resolve_left hnumber
    have hdots := hasDoubleDot_name h hnumber
    rw [decide_eq_false hlast] at hdots
    obtain ⟨pre, last, htext⟩ := List.eq_nil_or_concat' _ |>.resolve_left
      (show Path.ofText key ≠ [] from fun hnil =>
        List.splitOn_ne_nil '/' key.toList (List.map_eq_nil_iff.1 hnil))
    unfold checkKey at h
    split at h
    · cases h
    rename_i hbad
    split at h
    · cases h
    rename_i hplain
    simp only [not_or] at hbad
    obtain ⟨hempty, -, hslash, hback⟩ := hbad
    have hhead : (Part.name key number).toList.head? = key.toList.head? := by
      rw [Part.toList_name_dot hnumber]
      exact List.head?_append_of_ne_nil _ fun hnil => hempty (String.toList_eq_nil_iff.1 hnil)
    -- the last piece has more letters than dots
    have hletter : 'c' ∈ (Part.name last number).toList := by
      rw [Part.toList_name_dot hnumber]
      simp
    have hone : Part.name last number ≠ "." := fun heq => by
      rw [heq] at hletter
      exact absurd hletter (by decide)
    have htwo : Part.name last number ≠ ".." := fun heq => by
      rw [heq] at hletter
      exact absurd hletter (by decide)
    rw [Bool.not_eq_true', Bool.not_eq_false, htext] at hplain
    unfold checkKey
    rw [if_neg, ofText_name htext, isPlainRelative_concat hplain hone htwo]
    · rfl
    · rw [hdots, hhead]
      simp only [Part.name_ne_empty hempty, hslash, hback, Bool.false_eq_true, or_self,
        not_false_eq_true]

end Directory

end ChunkedUpload
