import Mathlib.Data.List.DropRight
import ChunkedUpload.Proofs.Files.Walk

/-!
# The last name of a path and the path above it

A path with a name in it ends in a last name and blank pieces: `Ends p pre name trail`. Its parent
(`Ends.parent?`) and the path beside it under another name (`Ends.withFileName`) are known from
these, and the parent starts where the path does (`start_parent`) and is no longer
(`checkText_parent`).
-/

namespace ChunkedUpload.Files

namespace Path

variable {p pre trail above : Path} {name : String}

/-! ## Taking pieces off the end -/

theorem dropEnd_eq (drop : String → Bool) (p : Path) : dropEnd drop p = p.rdropWhile drop := rfl

theorem exists_trail (drop : String → Bool) (p : Path) :
    ∃ trail, p = dropEnd drop p ++ trail ∧ ∀ piece ∈ trail, drop piece = true :=
  ⟨p.rtakeWhile drop, List.rdropWhile_append_rtakeWhile.symm,
    fun _ h => List.mem_rtakeWhile_imp h⟩

theorem dropEnd_append {drop : String → Bool} (h : ∀ piece ∈ trail, drop piece = true) :
    dropEnd drop (p ++ trail) = dropEnd drop p := by
  induction trail using List.reverseRecOn with
  | nil => rw [List.append_nil]
  | append_singleton trail piece ih =>
    rw [← List.append_assoc, dropEnd_eq,
      List.rdropWhile_concat_pos drop (p ++ trail) piece (h piece (by simp)), ← dropEnd_eq]
    exact ih fun piece hpiece => h piece (List.mem_append_left _ hpiece)

theorem dropEnd_concat {drop : String → Bool} (h : drop name = false) :
    dropEnd drop (pre ++ [name]) = pre ++ [name] :=
  List.rdropWhile_concat_neg drop pre name (by rw [h]; exact Bool.false_ne_true)

theorem dropEnd_eq_nil {drop : String → Bool} :
    dropEnd drop p = [] ↔ ∀ piece ∈ p, drop piece = true := List.rdropWhile_eq_nil_iff

/-! ## The last name -/

/-- `name` is the last piece of `p` that is not blank; `pre` stands before it and `trail` behind. -/
structure Ends (p pre : Path) (name : String) (trail : Path) : Prop where
  eq : p = pre ++ name :: trail
  name : isBlank name = false
  trail : ∀ piece ∈ trail, isBlank piece = true

theorem exists_ends (h : ∃ piece ∈ p, isBlank piece = false) : ∃ pre name trail,
    Ends p pre name trail := by
  obtain ⟨trail, hp, htrail⟩ := exists_trail isBlank p
  have hsome : dropEnd isBlank p ≠ [] := by
    obtain ⟨piece, hmem, hpiece⟩ := h
    intro hnil
    rw [dropEnd_eq_nil.1 hnil piece hmem] at hpiece
    cases hpiece
  refine ⟨(dropEnd isBlank p).dropLast, (dropEnd isBlank p).getLast hsome, trail, ?_, ?_, htrail⟩
  · rw [← List.singleton_append, ← List.append_assoc, List.dropLast_append_getLast]
    exact hp
  · exact Bool.eq_false_iff.2 (List.rdropWhile_last_not isBlank p hsome)

theorem isAbsolute_cons {first : String} (h : p ≠ []) :
    isAbsolute (first :: p) = decide (first = "") := by
  have hlen : 1 < (first :: p).length := Nat.succ_lt_succ (List.length_pos_iff.2 h)
  rw [isAbsolute, decide_eq_true hlen, Bool.and_true, List.head?_cons]
  exact decide_eq_decide.2 (Option.some_inj)

/-- What a path without names starts with. -/
def head (p : Path) : Path :=
  if p.isAbsolute then ["", ""] else if p.head? = some "." then ["."] else [""]

namespace Ends

theorem dropEnd (h : Ends p pre name trail) : dropEnd isBlank p = pre ++ [name] := by
  rw [h.eq, ← List.singleton_append, ← List.append_assoc, dropEnd_append h.trail,
    dropEnd_concat h.name]

theorem name_ne_empty (h : Ends p pre name trail) : name ≠ "" := by
  rintro rfl
  cases h.name

theorem dropEnd_empty (h : Ends p pre name []) : Path.dropEnd (· = "") p = pre ++ [name] := by
  rw [h.eq]
  exact dropEnd_concat (decide_eq_false h.name_ne_empty)

theorem fileName? (h : Ends p pre name trail) (hup : name ≠ "..") : p.fileName? = some name := by
  simp only [Path.fileName?, h.dropEnd, List.getLast?_concat, hup, ↓reduceIte]

theorem parent? (h : Ends p pre name trail) : p.parent? =
    some (if Path.dropEnd isBlank pre = [] then head p else Path.dropEnd isBlank pre) := by
  unfold Path.parent?
  rw [h.dropEnd]
  cases hpre : pre ++ [name] with
  | nil => simp at hpre
  | cons first others =>
    dsimp only
    rw [← hpre, List.dropLast_concat]
    cases Path.dropEnd isBlank pre <;> rfl

theorem mem (h : Ends p pre name trail) {piece : String} (hpiece : piece ∈ pre ++ [name]) :
    piece ∈ p := by
  rw [h.eq, ← List.singleton_append, ← List.append_assoc]
  exact List.mem_append_left trail hpiece

theorem append_left (h : Ends p pre name trail) (q : Path) : Ends (q ++ p) (q ++ pre) name trail :=
  ⟨by rw [h.eq, List.append_assoc], h.name, h.trail⟩

theorem isEmpty (h : Ends p pre name trail) : p.isEmpty = false := by
  have hall : p.all (· = "") = false := by
    rw [List.all_eq_false]
    exact ⟨name, by simp [h.eq], by simpa using h.name_ne_empty⟩
  rw [Path.isEmpty, hall, Bool.false_and]

/-- Whether a path is absolute is seen before its last name. -/
theorem isAbsolute_append (h : Ends p pre name trail) (q : Path) :
    (p ++ q).isAbsolute = p.isAbsolute := by
  rw [h.eq]
  cases pre with
  | nil => simp [isAbsolute, h.name_ne_empty]
  | cons first others =>
    rw [List.cons_append, List.cons_append, isAbsolute_cons (by simp), isAbsolute_cons (by simp)]

end Ends

theorem isAbsolute_head (p : Path) : (head p).isAbsolute = p.isAbsolute := by
  unfold head
  by_cases habs : p.isAbsolute = true
  · rw [if_pos habs, habs]
    rfl
  · rw [if_neg habs, Bool.eq_false_iff.2 habs]
    split <;> rfl

/-- The path above starts where the path does. -/
theorem isAbsolute_parent (h : Ends p pre name trail) (habove : p.parent? = some above) :
    above.isAbsolute = p.isAbsolute := by
  rw [h.parent?, Option.some.injEq] at habove
  subst habove
  by_cases hnil : Path.dropEnd isBlank pre = []
  · rw [if_pos hnil, isAbsolute_head]
  · obtain ⟨blanks, hpre, hblanks⟩ := exists_trail isBlank pre
    have hsome : ∃ piece ∈ pre, isBlank piece = false := by
      by_contra hnone
      refine hnil (dropEnd_eq_nil.2 fun piece hpiece => ?_)
      by_contra hfalse
      exact hnone ⟨piece, hpiece, Bool.eq_false_iff.2 hfalse⟩
    obtain ⟨pre', name', trail', hends⟩ := exists_ends hsome
    have hends' : Ends (Path.dropEnd isBlank pre) pre' name' [] :=
      ⟨hends.dropEnd, hends.name, nofun⟩
    have hp : p = Path.dropEnd isBlank pre ++ (blanks ++ name :: trail) := by
      rw [← List.append_assoc, ← hpre, ← h.eq]
    have habs := hends'.isAbsolute_append (blanks ++ name :: trail)
    rw [if_neg hnil, ← habs, ← hp]

/-- The path above ends in a name if there is one before the last. -/
theorem exists_ends_parent (h : Ends p pre name trail) (habove : p.parent? = some above)
    (hsome : ∃ piece ∈ pre, isBlank piece = false) : ∃ pre' name', Ends above pre' name' [] := by
  obtain ⟨pre', name', trail', hends⟩ := exists_ends hsome
  have hne : pre' ++ [name'] ≠ [] := by simp
  rw [h.parent?, hends.dropEnd, if_neg hne, Option.some.injEq] at habove
  exact ⟨pre', name', habove.symm, hends.name, nofun⟩

/-! ## Other paths beside and above -/

/-- Beside a name stands any other name, in the same directory. -/
theorem withFileName_eq (h : Ends p pre name trail) (hup : name ≠ "..")
    (habove : p.parent? = some above) (hends : above.getLast? ≠ some "") (other : String) :
    p.withFileName other = above ++ [other] := by
  have hrelative : Path.isAbsolute [other] = false := by simp [isAbsolute]
  simp only [withFileName, h.fileName? hup, habove, join, hrelative, Bool.false_eq_true,
    ↓reduceIte, hends]

theorem width_append_le (p q : Path) : p.width ≤ (p ++ q).width := by
  cases hp : p with
  | nil => simp [width, text]
  | cons first others =>
    cases hq : q with
    | nil => rw [List.append_nil]
    | cons next more =>
      have hsplit := String.intercalate_append_of_ne_nil (s := "/") (List.cons_ne_nil first others)
        (List.cons_ne_nil next more)
      simp only [width, text, hsplit, String.utf8ByteSize_append]
      omega

/-- A name more comes with a slash. -/
theorem width_concat (h : p ≠ []) (name : String) :
    width (p ++ [name]) = p.width + 1 + name.utf8ByteSize := by
  have hslash : "/".utf8ByteSize = 1 := by decide
  rw [width, width, text, text, String.intercalate_append_of_ne_nil h (List.cons_ne_nil name []),
    String.intercalate_singleton, String.utf8ByteSize_append, String.utf8ByteSize_append, hslash]

end Path

namespace Tree

variable {t : Tree} {p q pre trail above : Path} {name : String}

theorem checkText_eq_ok : checkText p = .ok () ↔
    (∀ piece ∈ p, '\x00' ∉ piece.toList) ∧ p.isEmpty = false ∧ p.width < pathMax := by
  have hany : p.any (·.contains '\x00') = true ↔ ¬∀ piece ∈ p, '\x00' ∉ piece.toList := by
    simp [String.contains_char_eq]
  unfold checkText
  split_ifs with hnul hempty hwidth
  · simp [hany.1 hnul]
  · simp [hempty]
  · simp [hwidth]
  · have hclean := not_not.1 (mt hany.2 hnul)
    exact iff_of_true rfl ⟨hclean, Bool.eq_false_iff.2 hempty, Nat.not_le.1 hwidth⟩

/-- What stands before a valid path is valid, if it is not empty. -/
theorem checkText_of_append (h : checkText (p ++ q) = .ok ()) (hsome : p.isEmpty = false) :
    checkText p = .ok () := by
  obtain ⟨hnul, -, hwidth⟩ := checkText_eq_ok.1 h
  exact checkText_eq_ok.2 ⟨fun piece hpiece => hnul piece (List.mem_append_left q hpiece), hsome,
    Nat.lt_of_le_of_lt (Path.width_append_le p q) hwidth⟩

/-- So is the path above it. -/
theorem checkText_parent (hends : p.Ends pre name trail) (habove : p.parent? = some above)
    (h : checkText p = .ok ()) (hsome : above.isEmpty = false) : checkText above = .ok () := by
  rw [hends.parent?, Option.some.injEq] at habove
  by_cases hnil : Path.dropEnd Path.isBlank pre = []
  · rw [if_pos hnil, Path.head] at habove
    subst habove
    revert hsome
    split
    · exact fun _ => checkText_eq_ok.2 (by decide)
    · split
      · exact fun _ => checkText_eq_ok.2 (by decide)
      · intro hempty
        cases hempty
  · rw [if_neg hnil] at habove
    subst habove
    obtain ⟨blanks, hpre, -⟩ := Path.exists_trail Path.isBlank pre
    have hp : p = Path.dropEnd Path.isBlank pre ++ (blanks ++ name :: trail) := by
      rw [← List.append_assoc, ← hpre, ← hends.eq]
    rw [hp] at h
    exact checkText_of_append h hsome

theorem start_parent (hends : p.Ends pre name trail) (habove : p.parent? = some above)
    (base : Location) : start base above = start base p := by
  rw [start, start, Path.isAbsolute_parent hends habove]

/-! ## Leading to what is above -/

/-- The path leads to the directory `d`. -/
def LeadsTo (t : Tree) (p : Path) (d : Location) : Prop :=
  ∃ k, Leads t linksMax (start t.here p) p k d

theorem LeadsTo.unique {d e : Location} (h : t.LeadsTo p d) (h' : t.LeadsTo p e) : d = e := by
  obtain ⟨_, h⟩ := h
  obtain ⟨_, h'⟩ := h'
  exact h.unique h'

theorem LeadsTo.node?_eq_dir {d : Location} (h : t.LeadsTo p d) (hwell : t.WellFormed) :
    t.node? d = some .dir := by
  obtain ⟨k, hleads⟩ := h
  refine hleads.node?_eq_dir hwell ?_
  rw [start]
  split
  · exact node?_nil t
  · exact hwell.here

/-- What stands before a path that leads to a directory leads to one, too. -/
theorem Leads.front {n k : Nat} {loc d : Location} (h : Leads t n loc (p ++ q) k d) :
    ∃ j e, Leads t n loc p j e := by
  rcases leads_or_blocked t n loc p with hleads | ⟨error, hend, hon⟩
  · exact hleads
  · cases q with
    | nil =>
      rw [List.append_nil] at h
      exact (h.not_blocked ⟨hend, hon⟩).elim
    | cons piece rest =>
      have herror := hon true (piece :: rest) (List.cons_ne_nil piece rest)
      rw [h.found] at herror
      cases herror

/-- Blank pieces at the end make no difference. -/
theorem Leads.of_append_blanks {n k : Nat} {loc d : Location}
    (hblank : ∀ piece ∈ q, Path.isBlank piece = true) (h : Leads t n loc (p ++ q) k d) :
    ∃ k', Leads t n loc p k' d := by
  obtain ⟨k', d', h'⟩ := h.front
  have hall := h'.append (Leads.blanks hblank)
  rw [h.unique hall]
  exact ⟨k', h'⟩

/-- The path above leads where all before the last name does. -/
theorem leadsTo_parent (hends : p.Ends pre name trail) (habove : p.parent? = some above)
    {d : Location} : t.LeadsTo above d ↔ ∃ k, Leads t linksMax (start t.here p) pre k d := by
  rw [LeadsTo, start_parent hends habove]
  rw [hends.parent?, Option.some.injEq] at habove
  by_cases hnil : Path.dropEnd Path.isBlank pre = []
  · have hpre : ∀ piece ∈ pre, Path.isBlank piece = true := Path.dropEnd_eq_nil.1 hnil
    have hhead : ∀ piece ∈ above, Path.isBlank piece = true := by
      rw [if_pos hnil, Path.head] at habove
      subst habove
      split
      · decide
      · split <;> decide
    constructor
    · rintro ⟨k, h⟩
      rw [h.unique (Leads.blanks hhead)]
      exact ⟨_, Leads.blanks hpre⟩
    · rintro ⟨k, h⟩
      rw [h.unique (Leads.blanks hpre)]
      exact ⟨_, Leads.blanks hhead⟩
  · rw [if_neg hnil] at habove
    subst habove
    obtain ⟨blanks, hpre, hblanks⟩ := Path.exists_trail Path.isBlank pre
    constructor
    · rintro ⟨k, h⟩
      have hall := h.append (Leads.blanks hblanks)
      rw [← hpre] at hall
      exact ⟨_, hall⟩
    · rintro ⟨k, h⟩
      rw [hpre] at h
      exact h.of_append_blanks hblanks

end Tree

end ChunkedUpload.Files
