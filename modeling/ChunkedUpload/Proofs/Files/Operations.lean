import ChunkedUpload.Proofs.Files.Paths

/-!
# What operations on a tree do, and where

`Edits t at t'`: the operations that lead from `t` to `t'` made, replaced or removed entries at the
locations `at` and left all others alone. An operation on a path edits, if anything, the entry that
its last name has in the directory that the path above leads to: `slot_plain` says so for all of
them, `makeDir_eq` and `writeFile_eq` what becomes of it.
-/

namespace ChunkedUpload.Files.Tree

variable {t t' t'' : Tree} {p q pre trail above : Path} {name : String} {d : Location}

/-! ## Edits -/

/-- What was done on the way from one tree to another, the last place first. -/
structure Edits (t : Tree) (places : List Location) (t' : Tree) : Prop where
  touched : t'.touched = places ++ t.touched
  here : t'.here = t.here
  others : ∀ a, a ∉ places → t'.node? a = t.node? a

namespace Edits

variable {places more : List Location} {loc : Location} {node : Node}

theorem refl (t : Tree) : Edits t [] t := ⟨rfl, rfl, fun _ _ => rfl⟩

theorem trans (h : Edits t places t') (h' : Edits t' more t'') : Edits t (more ++ places) t'' where
  touched := by rw [h'.touched, h.touched, List.append_assoc]
  here := h'.here.trans h.here
  others := by
    intro a ha
    rw [List.mem_append, not_or] at ha
    rw [h'.others a ha.1, h.others a ha.2]

theorem insert (t : Tree) (loc : Location) (node : Node) : Edits t [loc] (t.insert loc node) where
  touched := rfl
  here := rfl
  others := by
    intro a ha
    rw [node?_insert, if_neg fun h => ha (List.mem_singleton.2 h.2)]

theorem erase (t : Tree) (loc : Location) : Edits t [loc] (t.erase loc) where
  touched := rfl
  here := rfl
  others := by
    intro a ha
    rw [node?_erase, if_neg fun h => ha (List.mem_singleton.2 h.2)]

end Edits

theorem WellFormed.insert_dir (h : t.WellFormed) (hd : t.node? d = some .dir) :
    (t.insert (name :: d) .dir).WellFormed where
  here := by
    show (t.insert (name :: d) .dir).node? t.here = some .dir
    rw [node?_insert]
    split
    · rfl
    · exact h.here
  above := by
    intro other loc hsome
    rw [node?_insert] at hsome ⊢
    by_cases hnew : other :: loc = name :: d
    · cases hnew
      split
      · rfl
      · exact hd
    · rw [if_neg fun hboth => hnew hboth.2] at hsome
      split
      · rfl
      · exact h.above hsome

/-- What is no directory can be replaced by a file, or by nothing. -/
theorem WellFormed.of_leaf {d : Location} (h : t.WellFormed) (hd : t.node? d = some .dir)
    (hleaf : t.node? (name :: d) ≠ some .dir) (hhere : t'.here = t.here)
    (hothers : ∀ a, a ≠ name :: d → t'.node? a = t.node? a) : t'.WellFormed where
  here := by
    rw [hhere, hothers _ fun heq => hleaf (heq ▸ h.here)]
    exact h.here
  above := by
    intro last loc hsome
    by_cases hself : last :: loc = name :: d
    · obtain ⟨rfl, rfl⟩ := List.cons.inj hself
      rwa [hothers _ (List.cons_ne_self last loc).symm]
    · rw [hothers _ hself] at hsome
      have hdir := h.above hsome
      rwa [hothers _ fun heq => hleaf (heq ▸ hdir)]

theorem WellFormed.erase {loc : Location} {node : Node} (h : t.WellFormed)
    (hnode : t.node? loc = some node) (hdir : node ≠ .dir) : (t.erase loc).WellFormed := by
  have hleaf : t.node? loc ≠ some .dir := by
    rw [hnode]
    exact fun heq => hdir (Option.some.inj heq)
  cases loc with
  | nil => exact absurd (node?_nil t) hleaf
  | cons name d =>
    refine h.of_leaf (h.above (by rw [hnode]; nofun)) hleaf rfl fun a ha => ?_
    rw [node?_erase, if_neg fun hboth => ha hboth.2]

/-! ## Finding entries -/

/-- The entry that a walk has found. -/
def entryOf : Except Errno Spot → Except IoError (Location × Node)
  | .ok (.found loc node) => .ok (loc, node)
  | .ok (.vacant _) => .error (.system .missing)
  | .error error => .error (.system error)

theorem entry_eq {follow : Bool} (htext : checkText p = .ok ()) :
    t.entry follow p = entryOf (t.locateFrom follow linksMax (start t.here p) p) := by
  rw [entry, locate, htext]
  show (system _ >>= _) = _
  rcases t.locateFrom follow linksMax (start t.here p) p with _ | ⟨_ | _⟩ <;> rfl

theorem entry_of_bad_text {follow : Bool} {error : IoError} (htext : checkText p = .error error) :
    t.entry follow p = .error error := by
  rw [entry, locate, htext]
  rfl

theorem checkText_of_entry {follow : Bool} {found : Location × Node}
    (h : t.entry follow p = .ok found) : checkText p = .ok () := by
  cases htext : checkText p with
  | ok => rfl
  | error error =>
    rw [entry_of_bad_text htext] at h
    cases h

theorem checkText_of_lstat {node : Node} (h : t.lstat p = .ok node) : checkText p = .ok () := by
  cases hentry : t.entry false p with
  | ok found => exact checkText_of_entry hentry
  | error error =>
    rw [lstat, hentry] at h
    cases h

/-- Where a path leads to a directory, there is an entry. -/
theorem lstat_of_leadsTo (htext : checkText p = .ok ()) (h : t.LeadsTo p d) :
    ∃ node, t.lstat p = .ok node := by
  obtain ⟨k, h⟩ := h
  obtain ⟨loc, node, hfound⟩ := h.exists_found
  exact ⟨node, by rw [lstat, entry_eq htext, hfound]; rfl⟩

theorem lstat_of_realpath (h : t.realpath p = .ok d) : ∃ node, t.lstat p = .ok node := by
  cases hentry : t.entry true p with
  | error error =>
    rw [realpath, hentry] at h
    cases h
  | ok found =>
    have htext := checkText_of_entry hentry
    rw [entry_eq htext] at hentry
    rcases hspot : t.locateFrom true linksMax (start t.here p) p with _ | ⟨loc, node⟩ | _ <;>
      rw [hspot] at hentry <;> cases hentry
    obtain ⟨l', node', hfound⟩ := exists_found_of_found hspot
    exact ⟨node', by rw [lstat, entry_eq htext, hfound]; rfl⟩

theorem realpath_of_leadsTo (htext : checkText p = .ok ()) (h : t.LeadsTo p d) :
    t.realpath p = .ok d := by
  obtain ⟨k, h⟩ := h
  rw [realpath, entry_eq htext, h.found]
  rfl

/-- A path that resolves leads to a directory, or a file is in the way of longer ones. -/
theorem leadsTo_of_realpath (h : t.realpath p = .ok d) :
    t.LeadsTo p d ∨ Blocked t linksMax (start t.here p) p .notDirectory := by
  have htext : checkText p = .ok () := by
    rw [realpath] at h
    cases hentry : t.entry true p with
    | ok found => exact checkText_of_entry hentry
    | error error =>
      rw [hentry] at h
      cases h
  rcases leads_or_blocked t linksMax (start t.here p) p with ⟨k, e, hleads⟩ | ⟨error, hblocked⟩
  · have hpath := realpath_of_leadsTo htext ⟨k, hleads⟩
    rw [h] at hpath
    cases hpath
    exact .inl ⟨k, hleads⟩
  · refine .inr ?_
    have hend := hblocked.1
    rw [realpath, entry_eq htext] at h
    rcases hspot : t.locateFrom true linksMax (start t.here p) p with _ | ⟨loc, _ | _ | _⟩ | _ <;>
      rw [hspot] at h hend <;> cases h <;> cases hend
    exact hblocked

theorem isDir_iff : t.isDir p = true ↔ checkText p = .ok () ∧ ∃ d, t.LeadsTo p d := by
  constructor
  · intro h
    cases htext : checkText p with
    | error error =>
      rw [isDir, entry_of_bad_text htext] at h
      cases h
    | ok =>
      refine ⟨rfl, ?_⟩
      rcases leads_or_blocked t linksMax (start t.here p) p with ⟨k, e, hleads⟩ | ⟨error, hend, -⟩
      · exact ⟨e, k, hleads⟩
      · rw [isDir, entry_eq htext] at h
        rcases hspot : t.locateFrom true linksMax (start t.here p) p with
          _ | ⟨loc, _ | _ | _⟩ | _ <;>
          rw [hspot] at h hend <;> first | cases hend; done | simp [entryOf] at h
  · rintro ⟨htext, e, k, hleads⟩
    rw [isDir, entry_eq htext, hleads.found]
    rfl

/-- A text that is refused is not taken for a missing file, unless it is empty. -/
theorem kind_of_bad_text {error : IoError} (hempty : p.isEmpty = false)
    (h : checkText p = .error error) : error.kind ≠ .notFound := by
  unfold checkText at h
  simp only [hempty, Bool.false_eq_true, ↓reduceIte] at h
  split_ifs at h <;> cases h <;> decide

/-- What stands in the way before the last name is met at the name, too. -/
theorem lstat_of_blocked {error : Errno} (hends : p.Ends pre name trail)
    (htext : checkText p = .ok ()) (h : Blocked t linksMax (start t.here p) pre error) :
    t.lstat p = .error (.system error) := by
  have hwalk := h.2 false (name :: trail) (List.cons_ne_nil name trail)
  rw [← hends.eq] at hwalk
  rw [lstat, entry_eq htext, hwalk]
  rfl

/-- A name that the directory above does not have is missing. -/
theorem lstat_of_vacant (hends : p.Ends pre name []) (hup : name ≠ "..")
    (habove : p.parent? = some above) (htext : checkText p = .ok ()) (h : t.LeadsTo above d)
    (hfits : name.utf8ByteSize ≤ nameMax) (hnode : t.node? (name :: d) = none) :
    t.lstat p = .error (.system .missing) := by
  obtain ⟨k, h⟩ := (leadsTo_parent hends habove).1 h
  have hwalk : t.locateFrom false linksMax (start t.here p) (pre ++ [name]) =
      t.locateFrom false k d [name] := h.locateFrom (.inl (List.cons_ne_nil _ _))
  rw [← hends.eq, locateFrom_missing ⟨hends.name, hup⟩ hfits hnode, if_pos rfl] at hwalk
  rw [lstat, entry_eq htext, hwalk]
  rfl

/-! ## Slots -/

theorem slot_of_leadsTo (hends : p.Ends pre name []) (habove : p.parent? = some above)
    (htext : checkText p = .ok ()) (h : t.LeadsTo above d) :
    t.slot p = .ok ⟨d, name, false⟩ := by
  obtain ⟨k, h⟩ := (leadsTo_parent hends habove).1 h
  have hwalk : t.locateFrom true linksMax (start t.here p) (pre ++ ["."]) =
      .ok (.found d .dir) := by
    rw [h.locateFrom (.inr rfl), locateFrom_blank rfl, locateFrom_nil]
  have hlen : (pre ++ [name]).length < p.length ↔ False := by
    rw [hends.eq]
    simp
  rw [slot, htext]
  simp only [hends.dropEnd_empty, List.dropLast_concat, hwalk, List.getLast?_concat, hlen,
    decide_false]
  rfl

theorem slot_of_blocked {error : Errno} (hends : p.Ends pre name []) (htext : checkText p = .ok ())
    (h : Blocked t linksMax (start t.here p) pre error) : t.slot p = .error (.system error) := by
  have hwalk := h.2 true ["."] (List.cons_ne_nil _ _)
  rw [slot, htext]
  simp only [hends.dropEnd_empty, List.dropLast_concat, hwalk]
  rfl

theorem slot_of_bad_text {error : IoError} (htext : checkText p = .error error) :
    t.slot p = .error error := by
  rw [slot, htext]
  rfl

theorem checkText_of_slot {s : Slot} (h : t.slot p = .ok s) : checkText p = .ok () := by
  cases htext : checkText p with
  | ok => rfl
  | error error =>
    rw [slot_of_bad_text htext] at h
    cases h

/-- A slot for a name of its own is in the directory that the path above leads to. -/
theorem slot_plain {s : Slot} (hends : p.Ends pre name trail) (habove : p.parent? = some above)
    (h : t.slot p = .ok s) (hplain : s.isSpecial = false) :
    t.LeadsTo above s.dir ∧ s.name = name ∧ (s.slash = false → trail = []) := by
  have htext : checkText p = .ok () := by
    cases htext : checkText p with
    | ok => rfl
    | error error =>
      rw [slot_of_bad_text htext] at h
      cases h
  obtain ⟨rest, hp, hrest⟩ := Path.exists_trail (fun piece => piece = "") p
  have hlast : (Path.dropEnd (fun piece => piece = "") p).getLast?.getD "" = s.name ∧
      (∃ k, Leads t linksMax (start t.here p)
        (Path.dropEnd (fun piece => piece = "") p).dropLast k s.dir) ∧
      s.slash = decide ((Path.dropEnd (fun piece => piece = "") p).length < p.length) := by
    rw [slot, htext] at h
    rcases leads_or_blocked t linksMax (start t.here p)
      (Path.dropEnd (fun piece => piece = "") p).dropLast with ⟨k, e, hleads⟩ | ⟨error, hblocked⟩
    · have hwalk : t.locateFrom true linksMax (start t.here p)
          ((Path.dropEnd (fun piece => piece = "") p).dropLast ++ ["."]) = .ok (.found e .dir) := by
        rw [hleads.locateFrom (.inr rfl), locateFrom_blank rfl, locateFrom_nil]
      simp only [hwalk] at h
      cases h
      exact ⟨rfl, ⟨k, hleads⟩, rfl⟩
    · simp only [hblocked.2 true ["."] (List.cons_ne_nil _ _)] at h
      cases h
  obtain ⟨hname, ⟨k, hleads⟩, hslash⟩ := hlast
  have hblank : Path.isBlank s.name = false := by
    simp only [Slot.isSpecial, Bool.or_eq_false_iff] at hplain
    exact hplain.1
  -- the last piece that is not empty is not blank, so nothing but slashes follows the name
  have hbody : Path.dropEnd (fun piece => piece = "") p = pre ++ [name] := by
    have hblanks : ∀ piece ∈ rest, Path.isBlank piece = true := by
      intro piece hpiece
      have hempty := of_decide_eq_true (hrest piece hpiece)
      rw [hempty]
      rfl
    have hshort := hends.dropEnd
    rw [hp, Path.dropEnd_append hblanks] at hshort
    cases hcases : Path.dropEnd (fun piece => piece = "") p using List.reverseRecOn with
    | nil =>
      rw [hcases] at hname
      rw [← hname] at hblank
      cases hblank
    | append_singleton front last =>
      rw [hcases, List.getLast?_concat, Option.getD_some] at hname
      rw [hcases, Path.dropEnd_concat (hname ▸ hblank)] at hshort
      exact hshort
  rw [hbody, List.dropLast_concat] at hleads
  rw [hbody, List.getLast?_concat, Option.getD_some] at hname
  refine ⟨(leadsTo_parent hends habove).2 ⟨k, hleads⟩, hname.symm, fun hfalse => ?_⟩
  rw [hbody, hends.eq] at hslash
  rw [hfalse] at hslash
  simpa using hslash.symm

/-! ## Making directories -/

theorem isSpecial_eq_false {s : Slot} (h : Path.IsName s.name) : s.isSpecial = false := by
  rw [Slot.isSpecial, h.1, Bool.false_or]
  exact decide_eq_false h.2

theorem makeDir_of_bad_slot {error : IoError} (h : t.slot p = .error error) :
    t.makeDir p = .error error := by
  rw [makeDir, h]
  rfl

theorem makeDir_eq (hends : p.Ends pre name []) (hup : name ≠ "..")
    (habove : p.parent? = some above) (htext : checkText p = .ok ()) (h : t.LeadsTo above d) :
    t.makeDir p =
      if nameMax < name.utf8ByteSize then .error (.system .nameTooLong)
      else
        match t.node? (name :: d) with
        | some _ => .error (.system .present)
        | none => .ok (t.insert (name :: d) .dir) := by
  have hplain : Slot.isSpecial ⟨d, name, false⟩ = false := isSpecial_eq_false ⟨hends.name, hup⟩
  rw [makeDir, slot_of_leadsTo hends habove htext h]
  show (if Slot.isSpecial ⟨d, name, false⟩ = true then _ else _) = _
  rw [if_neg (by rw [hplain]; exact Bool.false_ne_true), nodeIn?]
  by_cases hlong : nameMax < name.utf8ByteSize
  · rw [if_pos hlong, if_pos hlong]
    rfl
  · rw [if_neg hlong, if_neg hlong]
    show (match t.node? (name :: d) with | some _ => _ | none => _) = _
    cases t.node? (name :: d) <;> rfl

/-- Nothing is made where a directory is already. -/
theorem makeDir_of_leadsTo (hends : p.Ends pre name []) (habove : p.parent? = some above)
    (htext : checkText p = .ok ()) (h : t.LeadsTo p d) :
    t.makeDir p = .error (.system .present) := by
  obtain ⟨k, hleads⟩ := h
  rcases leads_or_blocked t linksMax (start t.here p) pre with ⟨j, e, hpre⟩ | ⟨error, -, hon⟩
  · have habove' : t.LeadsTo above e := (leadsTo_parent hends habove).2 ⟨j, hpre⟩
    by_cases hup : name = ".."
    · rw [makeDir, slot_of_leadsTo hends habove htext habove', hup]
      rfl
    · have hname : Path.IsName name := ⟨hends.name, hup⟩
      have hwalk : t.locateFrom true linksMax (start t.here p) (pre ++ [name]) =
          t.locateFrom true j e [name] := hpre.locateFrom (.inr rfl)
      rw [← hends.eq, hleads.found] at hwalk
      rw [makeDir_eq hends hup habove htext habove']
      by_cases hlong : nameMax < name.utf8ByteSize
      · rw [locateFrom_long hname hlong] at hwalk
        cases hwalk
      · rw [if_neg hlong]
        cases hnode : t.node? (name :: e) with
        | some node => rfl
        | none =>
          rw [locateFrom_missing hname (Nat.not_lt.1 hlong) hnode] at hwalk
          cases hwalk
  · have hwalk := hon true [name] (List.cons_ne_nil _ _)
    rw [← hends.eq, hleads.found] at hwalk
    cases hwalk

theorem exists_slot_of_isDir (h : t.isDir p = true) : ∃ s, t.slot p = .ok s := by
  obtain ⟨htext, d, k, hleads⟩ := isDir_iff.1 h
  obtain ⟨trail, hp, -⟩ := Path.exists_trail (fun piece => piece = "") p
  have hfront : ∃ j e, Leads t linksMax (start t.here p)
      (Path.dropEnd (fun piece => piece = "") p).dropLast j e := by
    have hsplit : p = (Path.dropEnd (fun piece => piece = "") p).dropLast ++
        (p.drop (Path.dropEnd (fun piece => piece = "") p).dropLast.length) := by
      refine (List.prefix_iff_eq_append.1 ((List.dropLast_prefix _).trans ?_)).symm
      conv_rhs => rw [hp]
      exact List.prefix_append _ _
    generalize start t.here p = loc at hleads ⊢
    rw [hsplit] at hleads
    exact hleads.front
  obtain ⟨j, e, hbody⟩ := hfront
  have hwalk : t.locateFrom true linksMax (start t.here p)
      ((Path.dropEnd (fun piece => piece = "") p).dropLast ++ ["."]) = .ok (.found e .dir) := by
    rw [hbody.locateFrom (.inr rfl), locateFrom_blank rfl, locateFrom_nil]
  rw [slot, htext]
  simp only [hwalk]
  exact ⟨_, rfl⟩

/-- Where a directory is already, making it does not fail for want of one above. -/
theorem kind_makeDir_of_isDir {error : IoError} (h : t.isDir p = true)
    (hmake : t.makeDir p = .error error) : error.kind ≠ .notFound := by
  obtain ⟨s, hslot⟩ := exists_slot_of_isDir h
  rw [makeDir, hslot] at hmake
  simp only [bind, Except.bind, nodeIn?] at hmake
  split at hmake
  · cases hmake
    decide
  · split at hmake
    · next hlong =>
      split at hlong <;> cases hlong
      cases hmake
      decide
    · split at hmake <;> cases hmake
      decide

/-- The path above a directory leads to one. -/
theorem isDir_parent (h : t.isDir p = true) (habove : p.parent? = some above)
    (hsome : above.isEmpty = false) : t.isDir above = true := by
  obtain ⟨htext, d, k, hleads⟩ := isDir_iff.1 h
  have hnamed : ∃ piece ∈ p, Path.isBlank piece = false := by
    by_contra hblank
    have hnil : Path.dropEnd Path.isBlank p = [] := Path.dropEnd_eq_nil.2 fun piece hpiece =>
      Bool.of_not_eq_false fun hname => hblank ⟨piece, hpiece, hname⟩
    rw [Path.parent?, hnil] at habove
    dsimp only at habove
    split at habove <;> cases habove
    cases hsome
  obtain ⟨pre, name, trail, hends⟩ := Path.exists_ends hnamed
  have hfront : ∃ j e, Leads t linksMax (start t.here p) pre j e := by
    generalize start t.here p = loc at hleads ⊢
    rw [hends.eq] at hleads
    exact hleads.front
  obtain ⟨j, e, hpre⟩ := hfront
  exact isDir_iff.2 ⟨checkText_parent hends habove htext hsome, e,
    (leadsTo_parent hends habove).2 ⟨j, hpre⟩⟩

theorem makeDirAllFrom_of_leadsTo (depth : Nat) (hends : p.Ends pre name [])
    (habove : p.parent? = some above) (htext : checkText p = .ok ()) (h : t.LeadsTo p d) :
    makeDirAllFrom depth p t = (.ok (), t) := by
  have hempty : p.isEmpty = false := (checkText_eq_ok.1 htext).2.1
  have hmake := makeDir_of_leadsTo hends habove htext h
  have hdir : t.isDir p = true := isDir_iff.2 ⟨htext, d, h⟩
  unfold makeDirAllFrom
  rw [hempty, hmake]
  simp only [Bool.false_eq_true, ↓reduceIte, IoError.kind, Errno.kind, reduceCtorEq, hdir]

theorem makeDirAllFrom_of_ok (depth : Nat) (hempty : p.isEmpty = false)
    (h : t.makeDir p = .ok t') : makeDirAllFrom depth p t = (.ok (), t') := by
  unfold makeDirAllFrom
  rw [hempty, h]
  rfl

theorem makeDirAllFrom_of_error {error : IoError} (depth : Nat) (hempty : p.isEmpty = false)
    (h : t.makeDir p = .error error) (hkind : error.kind ≠ .notFound) :
    makeDirAllFrom depth p t = (if t.isDir p then .ok () else .error error, t) := by
  unfold makeDirAllFrom
  simp only [hempty, h, hkind, Bool.false_eq_true, ↓reduceIte]

theorem makeDirAllFrom_zero (hempty : p.isEmpty = false)
    (h : t.makeDir p = .error (.system .missing)) :
    makeDirAllFrom 0 p t = (.error (.custom .other "failed to create whole tree"), t) := by
  unfold makeDirAllFrom
  simp only [hempty, h, IoError.kind, Errno.kind, Bool.false_eq_true, ↓reduceIte]

/-- The directories above come first. -/
theorem makeDirAllFrom_succ {depth : Nat} (hempty : p.isEmpty = false)
    (h : t.makeDir p = .error (.system .missing)) (habove : p.parent? = some above) :
    makeDirAllFrom (depth + 1) p t =
      match makeDirAllFrom depth above t with
      | (.error error, t') => (.error error, t')
      | (.ok (), t') =>
        match t'.makeDir p with
        | .ok t'' => (.ok (), t'')
        | .error error => (if t'.isDir p then .ok () else .error error, t') := by
  conv_lhs => unfold makeDirAllFrom
  rcases hall : makeDirAllFrom depth above t with ⟨_ | _, t'⟩
  · simp only [hempty, h, habove, hall, IoError.kind, Errno.kind, Bool.false_eq_true, ↓reduceIte]
  · cases hmake : t'.makeDir p <;> simp only [hempty, h, habove, hall, hmake, IoError.kind,
      Errno.kind, Bool.false_eq_true, ↓reduceIte]

/-! ## Files -/

theorem writeFile_eq (hends : p.Ends pre name []) (hup : name ≠ "..")
    (habove : p.parent? = some above) (h : t.LeadsTo above d) (content : Bytes)
    (hnode : ∀ node, t.node? (name :: d) = some node → ∃ old, node = .file old) :
    t.writeFile p content =
      match checkText p with
      | .error error => .error error
      | .ok () =>
        if nameMax < name.utf8ByteSize then .error (.system .nameTooLong)
        else .ok (t.insert (name :: d) (.file content)) := by
  obtain ⟨k, hleads⟩ := (leadsTo_parent hends habove).1 h
  have hname : Path.IsName name := ⟨hends.name, hup⟩
  cases htext : checkText p with
  | error error =>
    rw [writeFile, locate, htext]
    rfl
  | ok =>
    rw [writeFile, locate, htext]
    show (system _ >>= _) = _
    have hwalk : t.locateFrom true linksMax (start t.here p) (pre ++ [name]) =
        t.locateFrom true k d [name] := hleads.locateFrom (.inr rfl)
    rw [← hends.eq] at hwalk
    rw [hwalk]
    by_cases hlong : nameMax < name.utf8ByteSize
    · rw [if_pos hlong, locateFrom_long hname hlong]
      rfl
    · have hfits := Nat.not_lt.1 hlong
      rw [if_neg hlong]
      cases hold : t.node? (name :: d) with
      | none =>
        rw [locateFrom_missing hname hfits hold]
        rfl
      | some node =>
        obtain ⟨old, rfl⟩ := hnode node hold
        rw [locateFrom_file hname hfits hold]
        rfl

/-- What is written is in the place of a file or nothing, and its name fits. -/
theorem writeFile_ok_onto {content : Bytes} (hends : p.Ends pre name []) (hup : name ≠ "..")
    (habove : p.parent? = some above) (h : t.LeadsTo above d)
    (hnode : ∀ node, t.node? (name :: d) = some node → ∃ old, node = .file old)
    (hwrite : t.writeFile p content = .ok t') :
    checkText p = .ok () ∧ name.utf8ByteSize ≤ nameMax ∧
      t' = t.insert (name :: d) (.file content) := by
  rw [writeFile_eq hends hup habove h content hnode] at hwrite
  split at hwrite
  · cases hwrite
  · rename_i htext
    split at hwrite
    · cases hwrite
    · rename_i hfits
      cases hwrite
      exact ⟨htext, Nat.not_lt.1 hfits, rfl⟩

theorem eq_of_nodeIn? {s : Slot} {node : Option Node} (h : t.nodeIn? s = .ok node) :
    node = t.node? s.loc := by
  rw [nodeIn?] at h
  split at h
  · cases h
  · cases h
    rfl

/-- What is moved takes the place of a file, a link or nothing, and the target ends in its name. -/
theorem rename_ok_onto {source target aboveS aboveT preS preT trailS trailT : Path}
    {nameS nameT : String} (hendsS : source.Ends preS nameS trailS)
    (haboveS : source.parent? = some aboveS) (hendsT : target.Ends preT nameT trailT)
    (haboveT : target.parent? = some aboveT) (h : t.rename source target = .ok t') :
    ∃ (dS dT : Location) (node : Node), t.LeadsTo aboveS dS ∧ t.LeadsTo aboveT dT ∧
      t.node? (nameS :: dS) = some node ∧
      t' = (t.erase (nameS :: dS)).insert (nameT :: dT) node ∧
      trailT = [] ∧ checkText target = .ok () ∧ t.node? (nameT :: dT) ≠ some .dir ∧
      nameT.utf8ByteSize ≤ nameMax := by
  simp only [rename, bind, Except.bind] at h
  split at h
  · cases h
  rename_i s hs
  split at h
  · cases h
  rename_i s' ht
  split at h
  · cases h
  rename_i hspecial
  rw [not_or, Bool.not_eq_true, Bool.not_eq_true] at hspecial
  obtain ⟨hleadsS, rfl, -⟩ := slot_plain hendsS haboveS hs hspecial.1
  obtain ⟨hleadsT, rfl, htrail⟩ := slot_plain hendsT haboveT ht hspecial.2
  split at h
  · cases h
  rename_i found hfound
  split at h
  · cases h
  rename_i old hold
  cases found with
  | none => cases h
  | some node =>
    dsimp only at h
    split_ifs at h with hslash hdir
    cases h
    have hfits : s'.name.utf8ByteSize ≤ nameMax := by
      unfold nodeIn? at hold
      split at hold
      · cases hold
      · omega
    exact ⟨s.dir, s'.dir, node, hleadsS, hleadsT, (eq_of_nodeIn? hfound).symm, rfl,
      htrail (Bool.eq_false_iff.2 hslash), checkText_of_slot ht, eq_of_nodeIn? hold ▸ hdir, hfits⟩

theorem rename_eq_ok {source target aboveS aboveT preS preT trailS trailT : Path}
    {nameS nameT : String} (hendsS : source.Ends preS nameS trailS)
    (haboveS : source.parent? = some aboveS) (hendsT : target.Ends preT nameT trailT)
    (haboveT : target.parent? = some aboveT) (h : t.rename source target = .ok t') :
    ∃ (dS dT : Location) (node : Node), t.LeadsTo aboveS dS ∧ t.LeadsTo aboveT dT ∧
      t.node? (nameS :: dS) = some node ∧
      t' = (t.erase (nameS :: dS)).insert (nameT :: dT) node := by
  obtain ⟨dS, dT, node, hleadsS, hleadsT, hnode, htree, -⟩ :=
    rename_ok_onto hendsS haboveS hendsT haboveT h
  exact ⟨dS, dT, node, hleadsS, hleadsT, hnode, htree⟩

/-- A file with a plain path can be removed. -/
theorem removeFile_of_leadsTo {content : Bytes} (hends : p.Ends pre name []) (hup : name ≠ "..")
    (habove : p.parent? = some above) (htext : checkText p = .ok ()) (h : t.LeadsTo above d)
    (hfits : name.utf8ByteSize ≤ nameMax) (hnode : t.node? (name :: d) = some (.file content)) :
    t.removeFile p = .ok (t.erase (name :: d)) := by
  have hplain : Slot.isSpecial ⟨d, name, false⟩ = false := isSpecial_eq_false ⟨hends.name, hup⟩
  have hin : t.nodeIn? ⟨d, name, false⟩ = .ok (some (.file content)) := by
    rw [nodeIn?, if_neg (Nat.not_lt.2 hfits)]
    exact congrArg _ hnode
  rw [removeFile, slot_of_leadsTo hends habove htext h]
  show (if Slot.isSpecial ⟨d, name, false⟩ = true then _ else _) = _
  rw [if_neg (by rw [hplain]; exact Bool.false_ne_true), hin]
  rfl

theorem removeFile_eq_ok (hends : p.Ends pre name trail) (habove : p.parent? = some above)
    (h : t.removeFile p = .ok t') :
    ∃ (d : Location) (node : Node), t.LeadsTo above d ∧ trail = [] ∧
      t.node? (name :: d) = some node ∧ node ≠ .dir ∧ t' = t.erase (name :: d) := by
  simp only [removeFile, bind, Except.bind] at h
  split at h
  · cases h
  rename_i s hs
  split at h
  · cases h
  rename_i hspecial
  obtain ⟨hleads, rfl, htrail⟩ := slot_plain hends habove hs (Bool.eq_false_iff.2 hspecial)
  split at h
  · cases h
  rename_i found hfound
  match found, hfound, h with
  | some (.file content), hfound, h =>
    dsimp only at h
    split_ifs at h with hslash
    cases h
    exact ⟨s.dir, .file content, hleads, htrail (Bool.eq_false_iff.2 hslash),
      (eq_of_nodeIn? hfound).symm, nofun, rfl⟩
  | some (.link target), hfound, h =>
    dsimp only at h
    split_ifs at h with hslash
    cases h
    exact ⟨s.dir, .link target, hleads, htrail (Bool.eq_false_iff.2 hslash),
      (eq_of_nodeIn? hfound).symm, nofun, rfl⟩

end ChunkedUpload.Files.Tree
