import ChunkedUpload.Proofs.Files.Rooted
import ChunkedUpload.Proofs.Storage.Replacing
import ChunkedUpload.Storage.ObjectMap

/-!
# Where plain addresses lead

A `Plain` address is valid, and its names fit into directories beside those of temporary files. In a
rooted tree without links below the root its path is accepted (`objectPath_under`), and it is about
the location that the names of the address lead to.
-/

namespace ChunkedUpload.Directory

open Files (Location Node Path Tree under)
open Files.Path (isBlank)
open Files.Tree (Open Rooted checkText)

/-- The names of an object's path below the root. -/
def placeOf (a : Address) : Path := a.1 :: Path.ofText a.2

/-- An address whose parts are names without special meaning. A name in the key leaves room for the
suffix of a temporary name. -/
structure Plain (a : Address) : Prop where
  bucket : a.1 ≠ "" ∧ (∀ c ∈ a.1.toList, c.isAlphanum = true) ∧
    a.1.utf8ByteSize ≤ Files.Tree.nameMax
  pieces : ∀ piece ∈ Path.ofText a.2, piece ≠ "" ∧ piece ≠ "." ∧
    hasDoubleDot piece.toList = false ∧ '\x00' ∉ piece.toList ∧
    piece.toList.head? ≠ some '\\' ∧
    piece.utf8ByteSize + Files.TempName.suffixLength ≤ Files.Tree.nameMax

/-! ## Texts -/

theorem hasDoubleDot_append (l r : List Char) :
    hasDoubleDot (l ++ '/' :: r) = (hasDoubleDot l || hasDoubleDot r) := by
  induction l using hasDoubleDot.induct with
  | case1 l => rfl
  | case2 c l hmore ih =>
    have hfront : hasDoubleDot (c :: l) = hasDoubleDot l := by
      rw [hasDoubleDot]
      exact hmore
    rw [List.cons_append, hfront, ← ih, hasDoubleDot]
    rintro l' rfl heq
    cases l with
    | nil => cases heq
    | cons c' l => exact hmore l rfl (by rw [(List.cons.inj heq).1])
  | case3 => simp [hasDoubleDot]

theorem hasDoubleDot_intercalate {pieces : List (List Char)}
    (h : ∀ piece ∈ pieces, hasDoubleDot piece = false) :
    hasDoubleDot (['/'].intercalate pieces) = false := by
  induction pieces with
  | nil => rfl
  | cons piece pieces ih =>
    rw [List.forall_mem_cons] at h
    cases pieces with
    | nil => rw [List.intercalate_singleton, h.1]
    | cons next others =>
      rw [List.intercalate_cons_cons, List.append_assoc, List.singleton_append,
        hasDoubleDot_append, h.1, ih h.2]
      rfl

theorem ofText_inj {key key' : String} : Path.ofText key = Path.ofText key' ↔ key = key' := by
  refine ⟨fun h => ?_, congrArg _⟩
  have hpieces : key.toList.splitOn '/' = key'.toList.splitOn '/' :=
    List.map_injective_iff.2 (fun l l' heq => String.ofList_injective heq) h
  have htext : key.toList = key'.toList := by
    calc key.toList = ['/'].intercalate (key.toList.splitOn '/') :=
          (List.intercalate_splitOn '/').symm
      _ = ['/'].intercalate (key'.toList.splitOn '/') := by rw [hpieces]
      _ = key'.toList := List.intercalate_splitOn '/'
  exact String.toList_inj.1 htext

/-- The names of a place: those of directories, the bucket to begin with, and that of the file. -/
theorem exists_placeOf (a : Address) : ∃ q name, placeOf a = (a.1 :: q) ++ [name] ∧
    Path.ofText a.2 = q ++ [name] := by
  have hne : Path.ofText a.2 ≠ [] := fun hnil =>
    List.splitOn_ne_nil '/' a.2.toList (List.map_eq_nil_iff.1 hnil)
  obtain ⟨q, name, htext⟩ := List.eq_nil_or_concat' _ |>.resolve_left hne
  exact ⟨q, name, by rw [placeOf, htext, List.cons_append], htext⟩

theorem placeOf_inj {a a' : Address} : placeOf a = placeOf a' ↔ a = a' := by
  rw [placeOf, placeOf, List.cons.injEq, ofText_inj, Prod.ext_iff]

namespace Plain

variable {a : Address}

theorem not_mem_bucket (h : Plain a) {c : Char} (hc : c.isAlphanum = false) : c ∉ a.1.toList :=
  fun hmem => by
    rw [h.bucket.2.1 c hmem] at hc
    cases hc

theorem checkBucket (h : Plain a) : Directory.checkBucket a.1 = .ok () := by
  have hslash : '/' ∉ a.1.toList := h.not_mem_bucket rfl
  have hback : '\\' ∉ a.1.toList := h.not_mem_bucket rfl
  have hdot : '.' ∉ a.1.toList := h.not_mem_bucket rfl
  have hone : a.1 ≠ "." := fun heq => hdot (by rw [heq]; decide)
  have htwo : a.1 ≠ ".." := fun heq => hdot (by rw [heq]; decide)
  unfold Directory.checkBucket
  simp only [String.contains_char_eq, h.bucket.1, hslash, hback, hone, htwo, decide_false,
    Bool.false_eq_true, or_self, ↓reduceIte]

/-- The first piece of the key stands at its start. -/
theorem exists_first (h : Plain a) : ∃ c cs more,
    Path.ofText a.2 = String.ofList (c :: cs) :: more ∧ a.2.toList.head? = some c ∧ c ≠ '/' := by
  cases htext : a.2.toList with
  | nil =>
    have hpiece := h.pieces "" (by rw [Path.ofText, htext]; decide)
    exact absurd rfl hpiece.1
  | cons c cs =>
    obtain ⟨piece, pieces, hpieces⟩ := List.exists_cons_of_ne_nil (List.splitOn_ne_nil '/' cs)
    by_cases hc : c = '/'
    · have hpiece := h.pieces "" (by
        rw [Path.ofText, htext, List.splitOn_cons_eq_if_modifyHead, if_pos (by simpa using hc)]
        exact List.mem_cons_self)
      exact absurd rfl hpiece.1
    · refine ⟨c, piece, pieces.map String.ofList, ?_, rfl, hc⟩
      rw [Path.ofText, htext, List.splitOn_cons_eq_if_modifyHead, hpieces,
        if_neg (by simpa using hc)]
      rfl

theorem checkKey (h : Plain a) : Directory.checkKey a.2 = .ok () := by
  obtain ⟨c, cs, more, htext, hhead, hslash⟩ := h.exists_first
  have hfirst := h.pieces (String.ofList (c :: cs)) (by rw [htext]; exact List.mem_cons_self)
  have hempty : a.2 ≠ "" := by
    intro heq
    rw [heq] at hhead
    cases hhead
  have hdots : hasDoubleDot a.2.toList = false := by
    have htext : ['/'].intercalate (a.2.toList.splitOn '/') = a.2.toList :=
      List.intercalate_splitOn '/'
    rw [← htext]
    refine hasDoubleDot_intercalate fun piece hpiece => ?_
    have hnoDots := (h.pieces (String.ofList piece) (List.mem_map_of_mem hpiece)).2.2.1
    rwa [String.toList_ofList] at hnoDots
  have hback : c ≠ '\\' := fun heq => hfirst.2.2.2.2.1 (by rw [String.toList_ofList, heq]; rfl)
  have hplain : (Path.ofText a.2).isPlainRelative = true := by
    have hups : ∀ piece ∈ Path.ofText a.2, piece ≠ ".." := by
      intro piece hpiece heq
      have hnoDots := (h.pieces piece hpiece).2.2.1
      rw [heq] at hnoDots
      cases hnoDots
    have habs : (Path.ofText a.2).isAbsolute = false := by
      rw [htext, Files.Path.isAbsolute, List.head?_cons]
      simp
    have hdot : (Path.ofText a.2).head? ≠ some "." := by
      rw [htext, List.head?_cons, ne_eq, Option.some.injEq]
      exact hfirst.2.1
    rw [Files.Path.isPlainRelative, habs, decide_eq_true hdot]
    simpa using hups
  unfold Directory.checkKey
  simp only [hempty, hdots, hhead, Option.some.injEq, hslash, hback, hplain, Bool.not_true,
    Bool.false_eq_true, or_self, ↓reduceIte]

theorem place (h : Plain a) : (placeOf a).Plain := by
  intro piece hpiece
  rcases List.mem_cons.1 hpiece with rfl | hpiece
  · obtain ⟨-, hname⟩ := ofText_of_checkBucket h.checkBucket
    exact ⟨hname, h.bucket.2.2⟩
  · obtain ⟨hempty, hdot, hdots, -, -, hsize⟩ := h.pieces piece hpiece
    refine ⟨.of_ne hempty hdot fun heq => ?_, by omega⟩
    rw [heq] at hdots
    cases hdots

theorem noNul (h : Plain a) : ∀ piece ∈ placeOf a, '\x00' ∉ piece.toList := by
  intro piece hpiece
  rcases List.mem_cons.1 hpiece with rfl | hpiece
  · exact h.not_mem_bucket rfl
  · exact (h.pieces piece hpiece).2.2.2.1

theorem pathOf_eq (h : Plain a) (root : Path) :
    pathOf root a.1 a.2 = rootBase root ++ placeOf a :=
  Directory.pathOf_eq root h.checkBucket h.checkKey

end Plain

/-! ## Many addresses -/

/-- Addresses whose objects can be files below `root` side by side: no place is above another
one. -/
structure Suitable (root : Path) (used : List Address) : Prop where
  plain : ∀ a ∈ used, Plain a
  apart : ∀ a ∈ used, ∀ a' ∈ used, a.1 = a'.1 → Path.ofText a.2 <+: Path.ofText a'.2 → a.2 = a'.2
  fits : ∀ a ∈ used, (pathOf root a.1 a.2).width < Files.Tree.pathMax

/-- There is room for the path of a temporary file beside the object. -/
def Roomy (root : Path) (a : Address) : Prop :=
  (pathOf root a.1 a.2).width + Files.TempName.suffixLength < Files.Tree.pathMax

namespace Suitable

variable {root : Path} {used : List Address} {a a' : Address} {q : Path} {name : String}

theorem eq_of_above (h : Suitable root used) (ha : a ∈ used) (ha' : a' ∈ used)
    (hpre : placeOf a <+: placeOf a') : a = a' := by
  obtain ⟨hbucket, hkey⟩ := List.cons_prefix_cons.1 hpre
  exact Prod.ext hbucket (h.apart a ha a' ha' hbucket hkey)

theorem checkText (h : Suitable root used) (ha : a ∈ used)
    (hroot : Files.Tree.checkText root = .ok ()) :
    Files.Tree.checkText (rootBase root ++ placeOf a) = .ok () := by
  have hplain := h.plain a ha
  have hfits := h.fits a ha
  obtain ⟨trail, heq, -⟩ := eq_rootBase root
  obtain ⟨hnul, -⟩ := Files.Tree.checkText_eq_ok.1 hroot
  rw [hplain.pathOf_eq] at hfits
  refine Files.Tree.checkText_eq_ok.2 ⟨fun piece hpiece => ?_,
    Rooted.isEmpty hplain.place (List.cons_ne_nil _ _), hfits⟩
  rcases List.mem_append.1 hpiece with hpiece | hpiece
  · exact hnul piece (heq ▸ List.mem_append_left trail hpiece)
  · exact hplain.noNul piece hpiece

theorem temp (h : Suitable root used) (ha : a ∈ used) (hplace : placeOf a = q ++ [name])
    (ticket : Nat) : Files.Path.Plain (q ++ [Files.TempName.of name ticket]) := by
  have hplain := (h.plain a ha).place
  obtain ⟨q', name', hplace', htext⟩ := exists_placeOf a
  obtain ⟨-, hname⟩ := List.append_inj' (hplace.symm.trans hplace') rfl
  have hsize := ((h.plain a ha).pieces name (by
    rw [htext, List.singleton_inj.1 hname]
    exact List.mem_append_right q' (List.mem_singleton_self _))).2.2.2.2.2
  intro piece hpiece
  rcases List.mem_append.1 hpiece with hpiece | hpiece
  · exact hplain piece (hplace ▸ List.mem_append_left _ hpiece)
  · rw [List.mem_singleton.1 hpiece]
    have hsuffix : Files.TempName.suffixLength = 41 := by decide
    exact ⟨Files.TempName.isName_of name ticket, by rw [Files.TempName.utf8ByteSize_of]; omega⟩

theorem checkText_temp (h : Suitable root used) (ha : a ∈ used) (hroom : Roomy root a)
    (hplace : placeOf a = q ++ [name]) (hroot : Files.Tree.checkText root = .ok ())
    (ticket : Nat) :
    Files.Tree.checkText (rootBase root ++ (q ++ [Files.TempName.of name ticket])) = .ok () := by
  have hplain := h.plain a ha
  have htext := h.checkText ha hroot
  have hne : rootBase root ++ q ≠ [] := by
    obtain ⟨q', name', hplace', -⟩ := exists_placeOf a
    obtain ⟨hq, -⟩ := List.append_inj' (hplace.symm.trans hplace') rfl
    rw [hq]
    exact List.append_ne_nil_of_right_ne_nil _ (List.cons_ne_nil _ _)
  have hsuffix : Files.TempName.suffixLength = 41 := by decide
  rw [Roomy, hplain.pathOf_eq, hplace, ← List.append_assoc, Files.Path.width_concat hne] at hroom
  rw [hplace, ← List.append_assoc] at htext
  obtain ⟨hnul, -, -⟩ := Files.Tree.checkText_eq_ok.1 htext
  refine Files.Tree.checkText_eq_ok.2 ⟨fun piece hpiece => ?_,
    Rooted.isEmpty (h.temp ha hplace ticket) (by simp), ?_⟩
  · rw [← List.append_assoc] at hpiece
    rcases List.mem_append.1 hpiece with hpiece | hpiece
    · exact hnul piece (List.mem_append_left _ hpiece)
    · rw [List.mem_singleton.1 hpiece]
      exact Files.TempName.noNul_of (hnul name (by simp)) ticket
  · rw [← List.append_assoc, Files.Path.width_concat hne, Files.TempName.utf8ByteSize_of]
    omega

end Suitable

/-! ## Accepted paths -/

section

variable {t : Tree} {root : Location} {base q : Path}

theorem below_of_rooted (h : t.Rooted base root) (hq : q.Plain) (hne : q ≠ []) :
    Below t root base (base ++ q) := by
  obtain ⟨piece, hpiece⟩ := List.exists_mem_of_ne_nil q hne
  exact ⟨h.nonempty, h.leads q hne, q, rfl, fun piece hpiece => (hq piece hpiece).1.2, piece,
    hpiece, (hq piece hpiece).1.1⟩

theorem nearest?_of_ok {p : Path} {node : Node} (depth : Nat) (h : t.lstat p = .ok node) :
    nearest? t depth p = .ok (some (p, node)) := by
  unfold nearest?
  rw [h]

theorem nearest?_zero {p : Path} (h : t.lstat p = .error (.system .missing)) :
    nearest? t 0 p = .ok none := by
  unfold nearest?
  rw [h]
  rfl

theorem nearest?_succ {p above : Path} (depth : Nat)
    (h : t.lstat p = .error (.system .missing)) (habove : p.parent? = some above) :
    nearest? t (depth + 1) p = nearest? t depth above := by
  conv_lhs => unfold nearest?
  rw [h, habove]
  rfl

/-- The entry that the check of links finds is inside the root. -/
theorem nearest?_under (h : t.Rooted base root) : ∀ {q : Path} (depth : Nat), q.Plain → q ≠ [] →
    t.Open root q → (∀ p, t.node? (under root q) ≠ some (.link p)) →
    checkText (base ++ q) = .ok () → ∃ found?, nearest? t depth (base ++ q) = .ok found? ∧
      ∀ found, found? = some found → ∃ loc, t.realpath found.1 = .ok loc ∧ root <:+ loc := by
  intro q
  induction q using List.reverseRecOn with
  | nil => exact fun _ _ hne => absurd rfl hne
  | append_singleton pre name ih =>
    intro depth hq hne hopen hlink htext
    have hstat := h.lstat hq hne hopen hlink htext
    cases hnode : t.node? (under root (pre ++ [name])) with
    | some node =>
      rw [hnode] at hstat
      refine ⟨_, nearest?_of_ok depth hstat, fun found heq => ?_⟩
      cases heq
      exact ⟨_, h.realpath hq hne hopen hnode (fun p heq => hlink p (heq ▸ hnode)) htext,
        Files.suffix_under _ _⟩
    | none =>
      rw [hnode] at hstat
      have hends : Files.Path.Ends (base ++ (pre ++ [name])) (base ++ pre) name [] :=
        Rooted.ends hq.last.1
      have hshort : pre <+: pre ++ [name] := List.prefix_append pre [name]
      cases depth with
      | zero => exact ⟨none, nearest?_zero hstat, nofun⟩
      | succ depth =>
        by_cases hpre : pre = []
        · subst hpre
          -- the path above is the root, however it is written
          obtain ⟨above, hparent⟩ : ∃ above, (base ++ ([] ++ [name])).parent? = some above :=
            ⟨_, hends.parent?⟩
          have hleads : t.LeadsTo above root := h.leadsTo_above hq hparent h.dir
          have hsome := ((below_of_rooted h hq hne).parent hends hparent).1
          have htext' := Files.Tree.checkText_parent hends hparent htext hsome
          obtain ⟨node, hfound⟩ := Files.Tree.lstat_of_leadsTo htext' hleads
          refine ⟨_, (nearest?_succ depth hstat hparent).trans (nearest?_of_ok depth hfound),
            fun found heq => ?_⟩
          cases heq
          exact ⟨root, Files.Tree.realpath_of_leadsTo htext' hleads, List.suffix_refl root⟩
        · have hparent := Rooted.parent?_eq base hq hpre
          have htext' : checkText (base ++ pre) = .ok () := by
            rw [← List.append_assoc] at htext
            exact Files.Tree.checkText_of_append htext (Rooted.isEmpty (hq.above hshort) hpre)
          have hlink' : ∀ p, t.node? (under root pre) ≠ some (.link p) := by
            intro p heq
            rcases hopen pre hshort (by simp) with hnone | hdir
            · rw [heq] at hnone
              cases hnone
            · rw [heq] at hdir
              cases hdir
          rw [nearest?_succ depth hstat hparent]
          exact ih depth (hq.above hshort) hpre (hopen.above hshort) hlink' htext'

end

/-- The root of a store is rooted if it is a directory. -/
theorem rooted_of_leadsTo {t : Tree} {root : Path} {loc : Location} (hwell : t.WellFormed)
    (htext : checkText root = .ok ()) (h : t.LeadsTo root loc) : t.Rooted (rootBase root) loc := by
  have hreal := Files.Tree.realpath_of_leadsTo htext h
  have hsome := isEmpty_of_realpath hreal
  have hdir := h.node?_eq_dir hwell
  obtain ⟨k, hleads⟩ := h
  obtain ⟨trail, hroot, hblank, -⟩ := eq_rootBase root
  refine ⟨hwell, (start_rootBase hsome (List.cons_ne_nil "" []) t.here).1, fun q hq => ?_, hdir⟩
  rw [(start_rootBase hsome hq t.here).2]
  generalize Files.Tree.start t.here root = place at hleads ⊢
  rw [hroot] at hleads
  exact hleads.of_append_blanks hblank

theorem leadsTo_of_rooted {t : Tree} {root : Path} {loc : Location}
    (hsome : root.isEmpty = false) (h : t.Rooted (rootBase root) loc) : t.LeadsTo root loc := by
  obtain ⟨trail, hroot, hblank, -⟩ := eq_rootBase root
  obtain ⟨k, hleads⟩ := h.leads [""] (List.cons_ne_nil "" [])
  rw [(start_rootBase hsome (List.cons_ne_nil "" []) t.here).2] at hleads
  have hwhole := hleads.append (Files.Tree.Leads.blanks hblank)
  rw [← hroot] at hwhole
  exact ⟨k, hwhole⟩

/-- A valid path is accepted if only directories stand above it, and no link at it. -/
theorem objectPath_of_open {d : Directory} {loc : Location} {a : Address}
    (hbucket : checkBucket a.1 = .ok ()) (hkey : checkKey a.2 = .ok ()) (hplain : (placeOf a).Plain)
    (hpath : checkText (rootBase d.root ++ placeOf a) = .ok ())
    (htext : checkText d.root = .ok ()) (h : d.tree.Rooted (rootBase d.root) loc)
    (hopen : d.tree.Open loc (placeOf a))
    (hlink : ∀ p, d.tree.node? (under loc (placeOf a)) ≠ some (.link p)) :
    d.objectPath a.1 a.2 = .ok (rootBase d.root ++ placeOf a) := by
  have hsome : d.root.isEmpty = false := (Files.Tree.checkText_eq_ok.1 htext).2.1
  have hreal := Files.Tree.realpath_of_leadsTo htext (leadsTo_of_rooted hsome h)
  obtain ⟨found?, hnear, hinside⟩ := nearest?_under h (rootBase d.root ++ placeOf a).length
    hplain (List.cons_ne_nil _ _) hopen hlink hpath
  have hcheck : ∀ found, found? = some found →
      checkInside d.tree loc a.2 found.1 found.2 = .ok () := by
    intro found heq
    obtain ⟨place, hplace, hsuffix⟩ := hinside found heq
    unfold checkInside
    rw [hplace]
    exact if_pos (List.isSuffixOf_iff_suffix.2 hsuffix)
  rw [objectPath, hbucket, hkey, pathOf_eq d.root hbucket hkey, hreal]
  show ((nearest? d.tree (rootBase d.root ++ placeOf a).length
    (rootBase d.root ++ placeOf a)).mapError StorageError.io >>= _) = _
  rw [hnear]
  cases found? with
  | none => rfl
  | some found =>
    show (checkInside d.tree loc a.2 found.1 found.2 >>= _) = _
    rw [hcheck found rfl]
    rfl

/-- The path of an object is accepted if only directories stand above it, and no directory and no
link at it. -/
theorem objectPath_under {d : Directory} {loc : Location} {used : List Address} {a : Address}
    (hused : Suitable d.root used) (ha : a ∈ used) (htext : checkText d.root = .ok ())
    (h : d.tree.Rooted (rootBase d.root) loc) (hopen : d.tree.Open loc (placeOf a))
    (hlink : ∀ p, d.tree.node? (under loc (placeOf a)) ≠ some (.link p)) :
    d.objectPath a.1 a.2 = .ok (rootBase d.root ++ placeOf a) := by
  have hplain := hused.plain a ha
  exact objectPath_of_open hplain.checkBucket hplain.checkKey hplain.place
    (hused.checkText ha htext) htext h hopen hlink

end ChunkedUpload.Directory
