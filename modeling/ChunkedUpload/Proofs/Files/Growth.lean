import ChunkedUpload.Proofs.Files.Operations

/-!
# Trees that gain directories

`Grows t among places t'`: outside of the locations `places`, `t'` is `t` with more directories, to
which paths of `among` lead that did not resolve before. Making the directories of a path is such a
growth whatever becomes of it (`makeDirAll_grows`). Where a path led to before, it leads to
afterwards (`entry_of_kept`).
-/

namespace ChunkedUpload.Files

/-- From `p`, taking the path above some times gives the second path. -/
inductive Path.Climbs : Path → Path → Prop
  | here (p : Path) : Climbs p p
  | up {p above q : Path} : p.parent? = some above → Climbs above q → Climbs p q

/-- The paths above `p`. -/
def Path.Above (p q : Path) : Prop := ∃ above, p.parent? = some above ∧ above.Climbs q

namespace Path

variable {p q above : Path} {piece : String}

theorem mem_of_dropEnd {drop : String → Bool} (h : piece ∈ dropEnd drop p) : piece ∈ p := by
  obtain ⟨trail, hp, -⟩ := exists_trail drop p
  rw [hp]
  exact List.mem_append_left trail h

theorem mem_of_fileName? (h : p.fileName? = some piece) : piece ∈ p := by
  unfold fileName? at h
  split at h
  · rename_i name hlast
    split at h <;> cases h
    exact mem_of_dropEnd (List.mem_of_getLast? hlast)
  · cases h

/-- Names that the path above has, the path has. -/
theorem mem_of_parent (hparent : p.parent? = some above) (hpiece : piece ∈ above)
    (hname : isBlank piece = false) : piece ∈ p := by
  have hnot : piece ≠ "" ∧ piece ≠ "." := by simpa [isBlank] using hname
  unfold parent? at hparent
  dsimp only at hparent
  split at hparent
  · split at hparent <;> cases hparent
    exact absurd (List.mem_singleton.1 hpiece) hnot.1
  · split at hparent
    · cases hparent
      split at hpiece
      · simp [hnot] at hpiece
      · split at hpiece <;> simp [hnot] at hpiece
    · cases hparent
      exact mem_of_dropEnd (List.dropLast_subset _ (mem_of_dropEnd hpiece))

theorem mem_of_above (h : p.Above q) (hpiece : piece ∈ q) (hname : isBlank piece = false) :
    piece ∈ p := by
  obtain ⟨above, hparent, hclimbs⟩ := h
  refine mem_of_parent hparent ?_ hname
  induction hclimbs generalizing p with
  | here => exact hpiece
  | up hup _ ih => exact mem_of_parent hup (ih hpiece hup) hname

end Path

/-- What is known of a node without the bytes of a file. -/
def Node.shape : Node → Node
  | .dir => .dir
  | .file _ => .file []
  | .link target => .link target

/-- Nodes of one shape are files, or they are the same. -/
theorem Node.cases_of_shape {node node' : Node} (h : node.shape = node'.shape) :
    (∃ content content', node = .file content ∧ node' = .file content') ∨
      node' = node ∧ ∀ content, node ≠ .file content := by
  cases node <;> cases node' <;> cases h
  · exact .inr ⟨rfl, nofun⟩
  · exact .inl ⟨_, _, rfl, rfl⟩
  · exact .inr ⟨rfl, nofun⟩

namespace Tree

variable {t t' t'' : Tree} {p pre trail above : Path} {name : String} {d : Location}

/-! ## What a larger tree finds -/

section

variable {r : Node → Node → Prop} (hshape : ∀ node node', r node node' → node.shape = node'.shape)
  (hkept : ∀ a node, t.node? a = some node → ∃ node', t'.node? a = some node' ∧ r node node')

include hshape hkept

/-- Where all entries are kept but for bytes, directories and links are the same. -/
theorem node?_of_related {a : Location} {node : Node} (hnode : t.node? a = some node)
    (hnofile : ∀ content, node ≠ .file content) : t'.node? a = some node ∧ r node node := by
  obtain ⟨new, hnew, hrelated⟩ := hkept a node hnode
  obtain ⟨content, _, hfile, -⟩ | ⟨rfl, -⟩ := Node.cases_of_shape (hshape _ _ hrelated)
  · exact absurd hfile (hnofile content)
  · exact ⟨hnew, hrelated⟩

/-- And a walk comes to where it came to. -/
theorem locateFrom_found_of_related {follow : Bool} {n : Nat} {loc : Location}
    (hdir : r .dir .dir) :
    ∀ {l : Location} {node : Node}, t.locateFrom follow n loc p = .ok (.found l node) →
      ∃ node', t'.locateFrom follow n loc p = .ok (.found l node') ∧ r node node' := by
  induction n, loc, p using walk_induction with
  | nil n loc =>
    intro l node h
    rw [locateFrom_nil] at h ⊢
    cases h
    exact ⟨.dir, rfl, hdir⟩
  | blank n loc piece rest hblank ih =>
    intro l node h
    rw [locateFrom_blank hblank] at h ⊢
    exact ih h
  | up n loc rest ih =>
    intro l node h
    rw [locateFrom_up] at h ⊢
    exact ih h
  | name n loc piece rest hname hdown hlink =>
    intro l node h
    obtain ⟨hfits, hpasses⟩ := passes_of_locateFrom hname h
    cases hpasses with
    | dir hnode hon =>
      obtain ⟨hnew, -⟩ := node?_of_related hshape hkept hnode nofun
      rw [locateFrom_dir hname hfits hnew]
      exact hdown hon
    | file hnode hrest =>
      obtain ⟨new, hnew, hrelated⟩ := hkept _ _ hnode
      obtain ⟨_, content, -, rfl⟩ | ⟨-, hnone⟩ := Node.cases_of_shape (hshape _ _ hrelated)
      · rw [locateFrom_file hname hfits hnew, if_pos hrest]
        exact ⟨_, rfl, hrelated⟩
      · exact absurd rfl (hnone _)
    | link hn hgo hnode hon =>
      obtain ⟨hnew, -⟩ := node?_of_related hshape hkept hnode nofun
      subst hn
      rw [locateFrom_link_succ hname hfits hnew hgo]
      exact hlink _ _ rfl hon
    | last hnode hrest hfollow =>
      obtain ⟨hnew, hrelated⟩ := node?_of_related hshape hkept hnode nofun
      subst hrest hfollow
      exact ⟨_, locateFrom_link_end hname hfits hnew, hrelated⟩

end

/-- Where all entries are kept, a walk finds what it found. -/
theorem locateFrom_found_of_kept {follow : Bool} {n : Nat} {loc : Location}
    (hkept : ∀ a node, t.node? a = some node → t'.node? a = some node) {l : Location} {node : Node}
    (h : t.locateFrom follow n loc p = .ok (.found l node)) :
    t'.locateFrom follow n loc p = .ok (.found l node) := by
  obtain ⟨node', hfound, rfl⟩ := locateFrom_found_of_related (r := Eq)
    (fun _ _ heq => congrArg Node.shape heq)
    (fun a node hnode => ⟨node, hkept a node hnode, rfl⟩) rfl h
  exact hfound

/-- What the end of a walk tells of the node there; a directory may be the one it began in. -/
def Spot.Shows (t : Tree) (follow : Bool) : Spot → Prop
  | .found _ .dir => True
  | .found loc (.file content) => t.node? loc = some (.file content)
  | .found loc (.link target) => t.node? loc = some (.link target) ∧ follow = false
  | .vacant loc => t.node? loc = none

theorem shows_of_locateFrom {follow : Bool} {n : Nat} {loc : Location} :
    ∀ {spot : Spot}, t.locateFrom follow n loc p = .ok spot → spot.Shows t follow := by
  induction n, loc, p using walk_induction with
  | nil n loc =>
    intro spot h
    rw [locateFrom_nil] at h
    cases h
    trivial
  | blank n loc piece rest hblank ih =>
    intro spot h
    rw [locateFrom_blank hblank] at h
    exact ih h
  | up n loc rest ih =>
    intro spot h
    rw [locateFrom_up] at h
    exact ih h
  | name n loc piece rest hname hdown hlink =>
    intro spot h
    obtain ⟨-, hpasses⟩ := passes_of_locateFrom hname h
    cases hpasses with
    | vacant hnode | file hnode => exact hnode
    | dir _ hon => exact hdown hon
    | link hn _ _ hon => exact hlink _ _ hn hon
    | last hnode _ hfollow => exact ⟨hnode, hfollow⟩

/-- Behind a path to a file there is the file. -/
theorem node?_of_found {follow : Bool} {n : Nat} {loc l : Location} {content : Bytes}
    (h : t.locateFrom follow n loc p = .ok (.found l (.file content))) :
    t.node? l = some (.file content) := shows_of_locateFrom h

theorem locateFrom_of_entry {follow : Bool} {l : Location} {node : Node}
    (h : t.entry follow p = .ok (l, node)) :
    t.locateFrom follow linksMax (start t.here p) p = .ok (.found l node) := by
  rw [entry_eq (checkText_of_entry h)] at h
  rcases hspot : t.locateFrom follow linksMax (start t.here p) p with _ | ⟨l, node⟩ | _ <;>
    rw [hspot] at h <;> cases h
  rfl

/-- Where all entries are kept, a path leads to the entry it led to. -/
theorem entry_of_kept {follow : Bool} {found : Location × Node} (hhere : t'.here = t.here)
    (hkept : ∀ a node, t.node? a = some node → t'.node? a = some node)
    (h : t.entry follow p = .ok found) : t'.entry follow p = .ok found := by
  rw [entry_eq (checkText_of_entry h), hhere,
    locateFrom_found_of_kept hkept (locateFrom_of_entry h)]
  rfl

theorem readFile_eq_ok {content : Bytes} :
    t.readFile p = .ok content ↔ ∃ l, t.entry true p = .ok (l, .file content) := by
  unfold readFile
  rcases t.entry true p with _ | ⟨l, _ | _ | _⟩ <;> simp [bind, Except.bind]

theorem LeadsTo.of_kept (hhere : t'.here = t.here)
    (hkept : ∀ a node, t.node? a = some node → t'.node? a = some node) (h : t.LeadsTo p d) :
    t'.LeadsTo p d := by
  obtain ⟨k, h⟩ := h
  refine ⟨k, ?_⟩
  rw [hhere]
  exact h.mono fun a node ha _ => hkept a node ha

theorem realpath_of_kept (hhere : t'.here = t.here)
    (hkept : ∀ a node, t.node? a = some node → t'.node? a = some node)
    (h : t.realpath p = .ok d) : t'.realpath p = .ok d := by
  unfold realpath at h ⊢
  cases hentry : t.entry true p with
  | error error =>
    rw [hentry] at h
    cases h
  | ok found =>
    rw [hentry] at h
    rw [entry_of_kept hhere hkept hentry]
    exact h

/-! ## Growth -/

/-- Outside of `places`, `t'` has all that `t` has, and beyond that only directories, each of which
a path of `among` leads to that did not resolve before and ends in the name of the directory. -/
structure Grows (t : Tree) (among : Path → Prop) (places : List Location) (t' : Tree) : Prop where
  here : t'.here = t.here
  kept : ∀ {a : Location} {node : Node}, a ∉ places → t.node? a = some node →
    t'.node? a = some node
  made : ∀ {a : Location} {node : Node}, a ∉ places → t.node? a = none →
    t'.node? a = some node →
    node = .dir ∧ ∃ q, among q ∧ q.fileName? = a.head? ∧ t'.realpath q = .ok a ∧
      ∀ loc, t.realpath q ≠ .ok loc

namespace Grows

variable {among among' : Path → Prop} {places : List Location}

theorem refl (t : Tree) (among : Path → Prop) (places : List Location) :
    Grows t among places t :=
  ⟨rfl, fun _ h => h, fun _ hnone hsome => by rw [hnone] at hsome; cases hsome⟩

theorem keeps (h : Grows t among [] t') :
    ∀ a node, t.node? a = some node → t'.node? a = some node :=
  fun _ _ hnode => h.kept List.not_mem_nil hnode

theorem mono (h : Grows t among places t') (hamong : ∀ q, among q → among' q) :
    Grows t among' places t' :=
  ⟨h.here, h.kept, fun ha hnone hsome =>
    have ⟨hdir, q, hq, hpath⟩ := h.made ha hnone hsome
    ⟨hdir, q, hamong q hq, hpath⟩⟩

theorem trans (h : Grows t among [] t') (h' : Grows t' among [] t'') : Grows t among [] t'' := by
  refine ⟨h'.here.trans h.here, fun _ hnode => h'.keeps _ _ (h.keeps _ _ hnode), ?_⟩
  intro a node _ hnone hsome
  cases hmiddle : t'.node? a with
  | some old =>
    obtain ⟨hdir, q, hq, hname, hpath, hmissing⟩ := h.made List.not_mem_nil hnone hmiddle
    rw [h'.keeps _ _ hmiddle] at hsome
    cases hsome
    exact ⟨hdir, q, hq, hname, realpath_of_kept h'.here h'.keeps hpath, hmissing⟩
  | none =>
    obtain ⟨hdir, q, hq, hname, hpath, hmissing⟩ := h'.made List.not_mem_nil hmiddle hsome
    refine ⟨hdir, q, hq, hname, hpath, fun loc hloc => hmissing loc ?_⟩
    exact realpath_of_kept h.here h.keeps hloc

/-- Only the entries count. -/
theorem congr (h : Grows t among [] t') (hhere : t''.here = t'.here)
    (hsame : ∀ a, t''.node? a = t'.node? a) : Grows t among [] t'' := by
  refine ⟨hhere.trans h.here, fun _ ha => (hsame _).trans (h.keeps _ _ ha), ?_⟩
  intro a node _ hnone hsome
  rw [hsame] at hsome
  obtain ⟨hdir, q, hq, hname, hpath, hmissing⟩ := h.made List.not_mem_nil hnone hsome
  exact ⟨hdir, q, hq, hname, realpath_of_kept hhere (fun a node ha => (hsame a).trans ha) hpath,
    hmissing⟩

end Grows

/-! ## Making directories -/

/-- The name in a slot is a piece of the path. -/
theorem mem_of_slot {s : Slot} (h : t.slot p = .ok s) (hplain : s.isSpecial = false) :
    s.name ∈ p := by
  have hname : s.name = (Path.dropEnd (fun piece => piece = "") p).getLast?.getD "" := by
    unfold slot at h
    simp only [bind, Except.bind] at h
    split at h
    · cases h
    · split at h
      · cases h
      · split at h <;> cases h
        rfl
  cases hlast : (Path.dropEnd (fun piece => piece = "") p).getLast? with
  | none =>
    rw [hlast, Option.getD_none] at hname
    simp [Slot.isSpecial, hname, Path.isBlank] at hplain
  | some last =>
    rw [hlast, Option.getD_some] at hname
    obtain ⟨trail, hp, -⟩ := Path.exists_trail (fun piece => piece = "") p
    rw [hp, hname]
    exact List.mem_append_left trail (List.mem_of_getLast? hlast)

/-- A directory is made under a free name of the directory above. -/
theorem makeDir_eq_ok (h : t.makeDir p = .ok t') : ∃ pre name trail above d,
    p.Ends pre name trail ∧ p.parent? = some above ∧ checkText p = .ok () ∧ Path.IsName name ∧
      name.utf8ByteSize ≤ nameMax ∧ t.LeadsTo above d ∧ t.node? (name :: d) = none ∧
        t' = t.insert (name :: d) .dir := by
  simp only [makeDir, bind, Except.bind] at h
  split at h
  · cases h
  rename_i s hs
  split at h
  · cases h
  rename_i hspecial
  rw [Bool.not_eq_true] at hspecial
  have hname : Path.IsName s.name := by
    simp only [Slot.isSpecial, Bool.or_eq_false_iff, decide_eq_false_iff_not] at hspecial
    exact hspecial
  obtain ⟨pre, name, trail, hends⟩ := Path.exists_ends ⟨s.name, mem_of_slot hs hspecial, hname.1⟩
  obtain ⟨hleads, rfl, -⟩ := slot_plain hends hends.parent? hs hspecial
  split at h
  · cases h
  rename_i node hnode
  cases node with
  | some node => cases h
  | none =>
    cases h
    have hfree := eq_of_nodeIn? hnode
    have hfits : s.name.utf8ByteSize ≤ nameMax := by
      unfold nodeIn? at hnode
      split at hnode
      · cases hnode
      · omega
    exact ⟨pre, s.name, trail, _, s.dir, hends, hends.parent?, checkText_of_slot hs, hname, hfits,
      hleads, hfree.symm, rfl⟩

/-- A directory that is made is where its path leads from then on; before, it led nowhere. -/
theorem makeDir_grows (h : t.makeDir p = .ok t') : Grows t p.Climbs [] t' := by
  obtain ⟨pre, name, trail, above, d, hends, hparent, htext, hname, hfits, hleads, hfree, rfl⟩ :=
    makeDir_eq_ok h
  obtain ⟨k, hpre⟩ := (leadsTo_parent hends hparent).1 hleads
  have hkept : ∀ a node, t.node? a = some node →
      (t.insert (name :: d) .dir).node? a = some node := by
    intro a node ha
    rw [node?_insert, if_neg, ha]
    rintro ⟨-, rfl⟩
    rw [hfree] at ha
    cases ha
  have hnew : (t.insert (name :: d) .dir).LeadsTo p (name :: d) := by
    have hnode : (t.insert (name :: d) .dir).node? (name :: d) = some .dir := by
      rw [node?_insert, if_pos ⟨List.cons_ne_nil _ _, rfl⟩]
    have hwalk := (hpre.mono fun a node ha _ => hkept a node ha).append
      (.down hname hfits hnode (.blanks hends.trail))
    rw [← hends.eq] at hwalk
    exact ⟨k, hwalk⟩
  refine ⟨rfl, fun _ ha => hkept _ _ ha, fun {a node} _ hnone hsome => ?_⟩
  obtain rfl : a = name :: d := by
    by_contra hne
    rw [node?_insert, if_neg fun hboth => hne hboth.2, hnone] at hsome
    cases hsome
  rw [node?_insert, if_pos ⟨List.cons_ne_nil _ _, rfl⟩] at hsome
  cases hsome
  refine ⟨rfl, p, .here p, hends.fileName? hname.2, realpath_of_leadsTo htext hnew,
    fun loc hloc => ?_⟩
  have hwalk : t.locateFrom true linksMax (start t.here p) (pre ++ name :: trail) =
      t.locateFrom true k d (name :: trail) := hpre.locateFrom (.inr rfl)
  rw [← hends.eq, locateFrom_missing hname hfits hfree] at hwalk
  rw [realpath, entry_eq htext, hwalk] at hloc
  split at hloc <;> cases hloc

/-- Whatever becomes of it, making the directories of a path adds just directories on the way. -/
theorem makeDirAllFrom_grows (depth : Nat) (p : Path) (t : Tree) :
    Grows t p.Climbs [] (makeDirAllFrom depth p t).2 := by
  fun_induction makeDirAllFrom depth p t with
  | case1 => exact .refl _ _ _
  | case2 _ _ _ _ _ hmake => exact makeDir_grows hmake
  | case3 _ _ _ _ _ _ _ _ hparent _ _ hall ih =>
    rw [hall] at ih
    exact ih.mono fun _ => .up hparent
  | case4 _ _ _ _ _ _ _ _ hparent _ hall _ hmake ih =>
    rw [hall] at ih
    exact (ih.mono fun _ => .up hparent).trans (makeDir_grows hmake)
  | case5 _ _ _ _ _ _ _ _ hparent _ hall _ _ ih =>
    rw [hall] at ih
    exact ih.mono fun _ => .up hparent
  | case6 => exact .refl _ _ _
  | case7 => exact .refl _ _ _

theorem makeDirAll_grows (p : Path) (t : Tree) : Grows t p.Climbs [] (t.makeDirAll p).2 :=
  makeDirAllFrom_grows p.length p t

/-- If it fails, there is no directory in the end. -/
theorem isDir_of_makeDirAllFrom (depth : Nat) (p : Path) (t : Tree) :
    (makeDirAllFrom depth p t).1 ≠ .ok () → (makeDirAllFrom depth p t).2.isDir p = false := by
  have hmiss : ∀ {t : Tree} {p : Path} {error : IoError},
      (if t.isDir p then .ok () else .error error : Except IoError Unit) ≠ .ok () →
        t.isDir p = false := fun h => Bool.eq_false_iff.2 fun hdir => h (if_pos hdir)
  fun_induction makeDirAllFrom depth p t with
  | case1 => exact fun h => absurd rfl h
  | case2 => exact fun h => absurd rfl h
  | case3 _ _ _ _ _ _ _ above habove _ _ hall ih =>
    rw [hall] at ih
    refine fun _ => Bool.eq_false_iff.2 fun hdir => ?_
    have hsome : above.isEmpty = false := by
      refine Bool.eq_false_iff.2 fun hempty => ?_
      unfold makeDirAllFrom at hall
      rw [if_pos hempty] at hall
      cases hall
    exact Bool.eq_false_iff.1 (ih fun hok => by cases hok) (isDir_parent hdir habove hsome)
  | case4 => exact fun h => absurd rfl h
  | case5 => exact hmiss
  | case6 _ _ _ _ _ hmake hkind =>
    exact fun _ => Bool.eq_false_iff.2 fun hdir => kind_makeDir_of_isDir hdir hmake hkind
  | case7 => exact hmiss

theorem isDir_of_makeDirAll (p : Path) (t : Tree) (h : (t.makeDirAll p).2.isDir p = true) :
    (t.makeDirAll p).1 = .ok () :=
  not_not.1 fun herror => by
    rw [makeDirAll, isDir_of_makeDirAllFrom p.length p t herror] at h
    cases h

/-- It also keeps the tree together. -/
theorem WellFormed.makeDirAllFrom (depth : Nat) (p : Path) (h : t.WellFormed) :
    (makeDirAllFrom depth p t).2.WellFormed := by
  have hmade : ∀ {t t' : Tree} {p : Path}, t.WellFormed → t.makeDir p = .ok t' → t'.WellFormed := by
    intro t t' p h hmake
    obtain ⟨_, _, _, _, _, _, _, _, _, _, hleads, _, rfl⟩ := makeDir_eq_ok hmake
    exact h.insert_dir (hleads.node?_eq_dir h)
  fun_induction Tree.makeDirAllFrom depth p t with
  | case1 => exact h
  | case2 _ _ _ _ _ hmake => exact hmade h hmake
  | case3 _ _ _ _ _ _ _ _ _ _ _ hall ih =>
    rw [hall] at ih
    exact ih h
  | case4 _ _ _ _ _ _ _ _ _ _ hall _ hmake ih =>
    rw [hall] at ih
    exact hmade (ih h) hmake
  | case5 _ _ _ _ _ _ _ _ _ _ hall _ _ ih =>
    rw [hall] at ih
    exact ih h
  | case6 => exact h
  | case7 => exact h

theorem WellFormed.makeDirAll (p : Path) (h : t.WellFormed) : (t.makeDirAll p).2.WellFormed :=
  h.makeDirAllFrom p.length p

end Tree

end ChunkedUpload.Files
