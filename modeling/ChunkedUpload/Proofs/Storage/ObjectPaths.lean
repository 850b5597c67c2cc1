import ChunkedUpload.Proofs.Files.Operations
import ChunkedUpload.Storage.Directory

/-!
# The paths of objects

The path of an object goes on below the root (`Below`), so some entry above it exists and the check
of links cannot be passed for want of one (`nearest?_ne_none`). An accepted path has a nearest entry
inside the root (`accepted_of_objectPath`).
-/

namespace ChunkedUpload.Directory

open Files (Location Node Path Tree)
open Files.Path (Ends isBlank)
open Files.Tree (Leads Edits checkText linksMax start)

variable {t : Tree} {root : Location} {base p pre trail above : Path} {name : String}

/-! ## Below the root -/

/-- `p` goes on below `base`, which leads to `root`, with at least one more name and never up. -/
structure Below (t : Tree) (root : Location) (base p : Path) : Prop where
  nonempty : base ≠ []
  leads : ∃ k, Leads t linksMax (start t.here p) base k root
  tail : ∃ q, p = base ++ q ∧ (∀ piece ∈ q, piece ≠ "..") ∧ ∃ piece ∈ q, isBlank piece = false

theorem Below.exists_ends (h : Below t root base p) : ∃ q name trail,
    Ends p (base ++ q) name trail ∧ name ≠ ".." ∧ ∀ piece ∈ q, piece ≠ ".." := by
  obtain ⟨q, rfl, hup, hname⟩ := h.tail
  obtain ⟨q', name, trail, hends⟩ := Files.Path.exists_ends hname
  exact ⟨q', name, trail, hends.append_left base, hup name (hends.mem (by simp)),
    fun piece hpiece => hup piece (hends.mem (List.mem_append_left _ hpiece))⟩

theorem Below.name_ne_up (h : Below t root base p) (hends : Ends p pre name trail) :
    name ≠ ".." := by
  obtain ⟨q, name', trail', hends', hup, -⟩ := h.exists_ends
  have hsame := hends.dropEnd.symm.trans hends'.dropEnd
  rw [List.singleton_inj.1 (List.append_inj' hsame rfl).2]
  exact hup

/-- What is above the path, where there is no name between it and the base, is not empty. -/
theorem Below.isEmpty_head (h : Below t root base p)
    (hblank : ∀ piece ∈ base, isBlank piece = true) : (Files.Path.head p).isEmpty = false := by
  obtain ⟨q, rfl, -, hname⟩ := h.tail
  have hq : q ≠ [] := by
    rintro rfl
    obtain ⟨piece, hpiece, -⟩ := hname
    cases hpiece
  have hlen : 0 < q.length := List.length_pos_iff.2 hq
  unfold Files.Path.head
  cases hbase : base with
  | nil => exact absurd hbase h.nonempty
  | cons first others =>
    have hfirst := hblank first (by rw [hbase]; exact List.mem_cons_self)
    simp only [isBlank, Bool.or_eq_true, decide_eq_true_eq] at hfirst
    rcases hfirst with rfl | rfl
    · have habs : Files.Path.isAbsolute ("" :: others ++ q) = true := by
        simp only [Files.Path.isAbsolute, List.cons_append, List.head?_cons, List.length_cons,
          List.length_append, Bool.and_eq_true, decide_eq_true_eq, true_and]
        omega
      rw [if_pos habs]
      rfl
    · have habs : Files.Path.isAbsolute ("." :: others ++ q) = false := by
        simp [Files.Path.isAbsolute]
      rw [habs]
      rfl

/-- The path above one that goes on below the root by two names does so, too. -/
theorem Below.parent_below {q : Path} (h : Below t root base p)
    (hends : Ends p (base ++ q) name trail) (hparent : p.parent? = some above)
    (hups : ∀ piece ∈ q, piece ≠ "..") (hname : ∃ piece ∈ q, isBlank piece = false) :
    Below t root base above ∧ above.length < p.length ∧ ∃ pre' name', Ends above pre' name' [] := by
  obtain ⟨k, hleads⟩ := h.leads
  have hstart := Files.Tree.start_parent hends hparent t.here
  obtain ⟨q', next, blanks, hq⟩ := Files.Path.exists_ends hname
  have hlast : Files.Path.dropEnd isBlank (base ++ q) = base ++ q' ++ [next] :=
    (hq.append_left base).dropEnd
  have hsome : base ++ q' ++ [next] ≠ [] := by simp
  rw [hends.parent?, hlast, if_neg hsome, Option.some.injEq] at hparent
  subst hparent
  have hnext : Ends (base ++ q' ++ [next]) (base ++ q') next [] := ⟨rfl, hq.name, nofun⟩
  refine ⟨⟨h.nonempty, ⟨k, hstart ▸ hleads⟩, q' ++ [next], List.append_assoc _ _ _,
    fun piece hpiece => hups piece (hq.mem hpiece), next, by simp, hq.name⟩, ?_, _, _, hnext⟩
  rw [hends.eq, hq.eq]
  simp only [List.length_append, List.length_cons, List.length_nil]
  omega

/-- The path above one that goes on below the root does so, too, or leads to the root. -/
theorem Below.parent (h : Below t root base p) (hends : Ends p pre name trail)
    (hparent : p.parent? = some above) : above.isEmpty = false ∧
      (t.LeadsTo above root ∨ Below t root base above ∧ above.length < p.length ∧
        ∃ pre' name', Ends above pre' name' []) := by
  obtain ⟨q, name', trail', hends', hup, hups⟩ := h.exists_ends
  obtain ⟨k, hleads⟩ := h.leads
  obtain rfl : pre = base ++ q := by
    have hsame := hends.dropEnd.symm.trans hends'.dropEnd
    exact (List.append_inj' hsame rfl).1
  by_cases hname : ∃ piece ∈ q, isBlank piece = false
  · obtain ⟨hbelow, hshorter, pre', next, hnext⟩ := h.parent_below hends hparent hups hname
    exact ⟨hnext.isEmpty, .inr ⟨hbelow, hshorter, pre', next, hnext⟩⟩
  · have hblank : ∀ piece ∈ q, isBlank piece = true := by
      intro piece hpiece
      by_contra hfalse
      exact hname ⟨piece, hpiece, Bool.eq_false_iff.2 hfalse⟩
    refine ⟨?_, .inl ((Files.Tree.leadsTo_parent hends hparent).2
      ⟨k, hleads.append (Leads.blanks hblank)⟩)⟩
    by_cases hbase : ∃ piece ∈ base ++ q, isBlank piece = false
    · obtain ⟨pre', last, hlast⟩ := Files.Path.exists_ends_parent hends hparent hbase
      exact hlast.isEmpty
    · have hnil : Files.Path.dropEnd isBlank (base ++ q) = [] :=
        Files.Path.dropEnd_eq_nil.2 fun piece hpiece => by
          by_contra hfalse
          exact hbase ⟨piece, hpiece, Bool.eq_false_iff.2 hfalse⟩
      rw [hends.parent?, if_pos hnil, Option.some.injEq] at hparent
      subst hparent
      exact h.isEmpty_head fun piece hpiece =>
        Files.Path.dropEnd_eq_nil.1 hnil piece (List.mem_append_left q hpiece)

/-! ## The nearest entry -/

/-- The nearest entry is the path's own or, where there is none, the one of the path above. -/
theorem nearest?_eq_some {depth : Nat} {found : Path × Node}
    (h : nearest? t depth p = .ok (some found)) :
    (t.lstat p = .ok found.2 ∧ found.1 = p) ∨
      (∃ error, t.lstat p = .error error ∧ error.kind = .notFound) ∧
        ∃ (depth' : Nat) (above : Path), p.parent? = some above ∧
          nearest? t depth' above = .ok (some found) := by
  unfold nearest? at h
  cases hstat : t.lstat p with
  | ok node =>
    rw [hstat] at h
    cases h
    exact .inl ⟨rfl, rfl⟩
  | error error =>
    rw [hstat] at h
    dsimp only at h
    split at h
    · rename_i hkind
      split at h
      · rename_i depth' above habove
        exact .inr ⟨⟨error, rfl, hkind⟩, _, _, habove, h⟩
      · cases h
    · cases h

/-- The nearest entry of a missing path is that of the path above. -/
theorem nearest?_above {depth : Nat} {found : Path × Node}
    (h : nearest? t depth p = .ok (some found)) (hparent : p.parent? = some above)
    (hmissing : ∀ node, t.lstat p ≠ .ok node) :
    ∃ depth', nearest? t depth' above = .ok (some found) := by
  rcases nearest?_eq_some h with ⟨hstat, -⟩ | ⟨-, depth', above', hparent', hnear⟩
  · exact absurd hstat (hmissing _)
  · rw [hparent] at hparent'
    cases hparent'
    exact ⟨depth', hnear⟩

/-- The path of an object has an entry, or something above it has. -/
theorem nearest?_ne_none : ∀ {depth : Nat} {p : Path}, Below t root base p → p.length ≤ depth →
    nearest? t depth p ≠ .ok none := by
  intro depth
  induction depth with
  | zero =>
    intro p h hlen
    obtain ⟨q, name, trail, hends, -⟩ := h.exists_ends
    rw [hends.eq] at hlen
    simp at hlen
  | succ depth ih =>
    intro p h hlen hnone
    obtain ⟨q, name, trail, hends, -, -⟩ := h.exists_ends
    obtain ⟨above, habove⟩ : ∃ above, p.parent? = some above := ⟨_, hends.parent?⟩
    obtain ⟨hsome, hcases⟩ := h.parent hends habove
    unfold nearest? at hnone
    cases hstat : t.lstat p with
    | ok node => rw [hstat] at hnone; cases hnone
    | error error =>
      rw [hstat] at hnone
      simp only [habove] at hnone
      split at hnone
      · rename_i hkind
        rcases hcases with hleads | ⟨hbelow, hshorter, -⟩
        · -- the root is there, so the search would have ended with it
          have htext : checkText p = .ok () := by
            cases htext : checkText p with
            | ok => rfl
            | error bad =>
              have hbad := Files.Tree.kind_of_bad_text hends.isEmpty htext
              rw [Files.Tree.lstat, Files.Tree.entry_of_bad_text htext] at hstat
              cases hstat
              exact absurd hkind hbad
          obtain ⟨node, hnode⟩ := Files.Tree.lstat_of_leadsTo
            (Files.Tree.checkText_parent hends habove htext hsome) hleads
          unfold nearest? at hnone
          rw [hnode] at hnone
          cases hnone
        · exact ih hbelow (by omega) hnone
      · cases hnone

/-! ## Valid buckets and keys -/

theorem ofText_of_checkBucket {bucket : String} (h : checkBucket bucket = .ok ()) :
    Path.ofText bucket = [bucket] ∧ Files.Path.IsName bucket := by
  unfold checkBucket at h
  split at h
  · cases h
  · rename_i hbad
    simp only [not_or, String.contains_char_eq, decide_eq_true_eq] at hbad
    obtain ⟨hempty, hslash, -, hdot, hup⟩ := hbad
    refine ⟨?_, ?_, hup⟩
    · rw [Path.ofText, List.splitOn_eq_singleton hslash, List.map_singleton, String.ofList_toList]
    · simp [isBlank, hempty, hdot]

/-- The pieces of a valid key: a name to begin with, and none that leads up. -/
theorem ofText_of_checkKey {key : String} (h : checkKey key = .ok ()) :
    ∃ first more, Path.ofText key = first :: more ∧ isBlank first = false ∧
      ∀ piece ∈ first :: more, piece ≠ ".." := by
  unfold checkKey at h
  split at h
  · cases h
  · rename_i hbad
    split at h
    · cases h
    · rename_i hplain
      simp only [not_or] at hbad
      obtain ⟨hempty, -, hslash, -⟩ := hbad
      simp only [Files.Path.isPlainRelative, Bool.not_eq_true', Bool.not_eq_false,
        Bool.and_eq_true, decide_eq_true_eq, List.all_eq_true] at hplain
      obtain ⟨⟨-, hdot⟩, hups⟩ := hplain
      have hsome : key.toList ≠ [] := fun hnil => hempty (String.toList_eq_nil_iff.1 hnil)
      obtain ⟨c, cs, hkey⟩ := List.exists_cons_of_ne_nil hsome
      have hc : c ≠ '/' := by
        rintro rfl
        rw [hkey] at hslash
        exact hslash rfl
      obtain ⟨piece, pieces, hpieces⟩ := List.exists_cons_of_ne_nil (List.splitOn_ne_nil '/' cs)
      have htext : Path.ofText key = String.ofList (c :: piece) :: pieces.map String.ofList := by
        rw [Path.ofText, hkey, List.splitOn_cons_eq_if_modifyHead, hpieces,
          if_neg (by simpa using hc)]
        rfl
      refine ⟨_, _, htext, ?_, fun piece hpiece => hups piece (htext ▸ hpiece)⟩
      rw [htext, List.head?_cons] at hdot
      have hne : String.ofList (c :: piece) ≠ "" := by
        intro hnil
        simpa using congrArg String.toList hnil
      have hdot' : String.ofList (c :: piece) ≠ "." := fun heq => hdot (by rw [heq])
      rw [isBlank, decide_eq_false hne, decide_eq_false hdot']
      rfl

/-- The root without a slash at its end. -/
def rootBase (root : Path) : Path := if root.getLast? = some "" then root.dropLast else root

/-- The path of an object: the root, the bucket, the pieces of the key. -/
theorem pathOf_eq (root : Path) {bucket key : String} (hbucket : checkBucket bucket = .ok ())
    (hkey : checkKey key = .ok ()) :
    pathOf root bucket key = rootBase root ++ bucket :: Path.ofText key := by
  obtain ⟨hone, hname⟩ := ofText_of_checkBucket hbucket
  obtain ⟨first, more, htext, hfirst, -⟩ := ofText_of_checkKey hkey
  have hrelative : Files.Path.isAbsolute [bucket] = false := by simp [Files.Path.isAbsolute]
  have hfirst' : first ≠ "" := by
    rintro rfl
    cases hfirst
  have hbucket' : bucket ≠ "" := by
    rintro rfl
    cases hname.1
  have hrelative' : Files.Path.isAbsolute (first :: more) = false := by
    simp [Files.Path.isAbsolute, hfirst']
  have hjoin : Files.Path.join root [bucket] = rootBase root ++ [bucket] := by
    rw [Files.Path.join, hrelative, rootBase]
    by_cases hlast : root.getLast? = some ""
    · simp only [hlast, Bool.false_eq_true, ↓reduceIte]
    · simp only [hlast, Bool.false_eq_true, ↓reduceIte]
  rw [pathOf, hone, hjoin, htext, Files.Path.join, hrelative', List.getLast?_concat]
  simp only [Bool.false_eq_true, ↓reduceIte, Option.some.injEq, hbucket', List.append_assoc,
    List.singleton_append]

/-! ## Accepted paths -/

/-- The root is its base, perhaps with a slash behind it. -/
theorem eq_rootBase (root : Path) : ∃ trail, root = rootBase root ++ trail ∧
    (∀ piece ∈ trail, isBlank piece = true) ∧ (trail = [] → root.getLast? ≠ some "") := by
  rw [rootBase]
  by_cases hlast : root.getLast? = some ""
  · rw [if_pos hlast]
    exact ⟨[""], (List.dropLast_append_getLast? "" hlast).symm, by decide, nofun⟩
  · rw [if_neg hlast]
    exact ⟨[], (List.append_nil root).symm, nofun, fun _ => hlast⟩

/-- What goes on below the root starts where the root starts. -/
theorem start_rootBase {root q : Path} (hsome : root.isEmpty = false) (hq : q ≠ [])
    (here : Location) :
    rootBase root ≠ [] ∧ start here (rootBase root ++ q) = start here root := by
  obtain ⟨trail, hroot, hblank, hlast⟩ := eq_rootBase root
  cases hbase : rootBase root with
  | nil =>
    rw [hbase, List.nil_append] at hroot
    rw [rootBase] at hbase
    split at hbase
    · rename_i hslash
      obtain ⟨front, rfl⟩ := List.getLast?_eq_some_iff.1 hslash
      rw [List.dropLast_concat] at hbase
      rw [hbase] at hsome
      cases hsome
    · rw [hbase] at hsome
      cases hsome
  | cons first others =>
    refine ⟨List.cons_ne_nil _ _, ?_⟩
    have habs : Files.Path.isAbsolute root = decide (first = "") := by
      rw [hroot, hbase, List.cons_append]
      by_cases hmore : others ++ trail = []
      · obtain ⟨rfl, rfl⟩ := List.append_eq_nil_iff.1 hmore
        have hfirst : first ≠ "" := fun hempty => hlast rfl (by rw [hroot, hbase, hempty]; rfl)
        simp [Files.Path.isAbsolute, hfirst]
      · exact Files.Path.isAbsolute_cons hmore
    rw [start, start, habs, List.cons_append,
      Files.Path.isAbsolute_cons (List.append_ne_nil_of_right_ne_nil others hq)]

theorem isEmpty_of_realpath {root : Path} {loc : Location} (h : t.realpath root = .ok loc) :
    root.isEmpty = false := by
  cases hentry : t.entry true root with
  | ok found => exact (Files.Tree.checkText_eq_ok.1 (Files.Tree.checkText_of_entry hentry)).2.1
  | error error =>
    rw [Files.Tree.realpath, hentry] at h
    cases h

/-- A root that resolves leads to where it resolves, or it is a file. -/
theorem leads_rootBase {root q : Path} {loc : Location} (h : t.realpath root = .ok loc)
    (hq : q ≠ []) : rootBase root ≠ [] ∧
      ((∃ k, Leads t linksMax (start t.here (rootBase root ++ q)) (rootBase root) k loc) ∨
        Files.Tree.Blocked t linksMax (start t.here (rootBase root ++ q)) (rootBase root)
          .notDirectory) := by
  obtain ⟨hne, hstart⟩ := start_rootBase (isEmpty_of_realpath h) hq t.here
  obtain ⟨trail, hroot, hblank, -⟩ := eq_rootBase root
  refine ⟨hne, ?_⟩
  rw [hstart]
  have hcases := Files.Tree.leadsTo_of_realpath h
  rw [Files.Tree.LeadsTo] at hcases
  generalize start t.here root = place at hcases ⊢
  generalize rootBase root = base at hroot ⊢
  subst hroot
  rcases hcases with ⟨k, hleads⟩ | hblocked
  · exact .inl (hleads.of_append_blanks hblank)
  · rcases Files.Tree.leads_or_blocked t linksMax place base with
      ⟨k, d, hleads⟩ | ⟨error, hend, hon⟩
    · exact ((hleads.append (Leads.blanks hblank)).not_blocked hblocked).elim
    · refine .inr ?_
      cases trail with
      | nil => rwa [List.append_nil] at hblocked
      | cons piece trail =>
        have hsame := hblocked.1
        rw [hon true (piece :: trail) (List.cons_ne_nil _ _)] at hsame
        cases hsame
        exact ⟨hend, hon⟩

/-- What an accepted path is like: the path above it goes on below the root, and the nearest entry
is inside the root. -/
structure Accepted (t : Tree) (root : Location) (path above : Path) (name : String) : Prop where
  below : ∃ base, Below t root base above
  nearest : ∃ depth found loc, nearest? t depth path = .ok (some found) ∧
    t.realpath found.1 = .ok loc ∧ root <:+ loc
  ends : ∃ pre trail, Ends path pre name trail
  name : name ≠ ".."
  parent : path.parent? = some above
  aboveEnds : ∃ pre' name', Ends above pre' name' []

theorem inside_of_checkInside {key : String} {node : Node}
    (h : checkInside t root key p node = .ok ()) :
    ∃ loc, t.realpath p = .ok loc ∧ root <:+ loc := by
  unfold checkInside at h
  split at h
  · cases h
  · cases h
  · rename_i loc hpath
    split at h
    · rename_i hinside
      exact ⟨loc, hpath, List.isSuffixOf_iff_suffix.1 hinside⟩
    · cases h

theorem objectPath_eq_ok {d : Directory} {bucket key : String} {path : Path}
    (hroot : d.tree.realpath d.root = .ok root) (h : d.objectPath bucket key = .ok path) :
    checkBucket bucket = .ok () ∧ checkKey key = .ok () ∧ path = pathOf d.root bucket key ∧
      ∃ found?, nearest? d.tree path.length path = .ok found? ∧
        ∀ found, found? = some found → checkInside d.tree root key found.1 found.2 = .ok () := by
  simp only [objectPath, bind, Except.bind, hroot, Except.mapError] at h
  split at h
  · cases h
  rename_i hbucket
  split at h
  · cases h
  rename_i hkey
  cases hnear : nearest? d.tree (pathOf d.root bucket key).length (pathOf d.root bucket key) with
  | error error =>
    rw [hnear] at h
    cases h
  | ok found? =>
    rw [hnear] at h
    cases found? with
    | none =>
      cases h
      exact ⟨hbucket, hkey, rfl, none, hnear, nofun⟩
    | some found =>
      dsimp only at h
      split at h
      · cases h
      rename_i hinside
      cases h
      refine ⟨hbucket, hkey, rfl, some found, hnear, fun found' heq => ?_⟩
      cases heq
      exact hinside

/-- Nothing is looked up below a file. -/
theorem nearest?_of_blocked {q : Path} {depth : Nat} {found? : Option (Path × Node)}
    (hblocked : Files.Tree.Blocked t linksMax (start t.here (base ++ q)) base .notDirectory)
    (hq : q ≠ []) (hsome : (base ++ q).isEmpty = false) :
    nearest? t depth (base ++ q) ≠ .ok found? := by
  have hstat : ∃ error, t.lstat (base ++ q) = .error error ∧ error.kind ≠ .notFound := by
    cases htext : checkText (base ++ q) with
    | error error =>
      refine ⟨error, ?_, Files.Tree.kind_of_bad_text hsome htext⟩
      rw [Files.Tree.lstat, Files.Tree.entry_of_bad_text htext]
      rfl
    | ok =>
      refine ⟨.system .notDirectory, ?_, by decide⟩
      rw [Files.Tree.lstat, Files.Tree.entry_eq htext, hblocked.2 false q hq]
      rfl
  obtain ⟨error, hstat, hkind⟩ := hstat
  unfold nearest?
  rw [hstat]
  simp only [hkind, ↓reduceIte]
  intro hfound
  cases hfound

theorem accepted_of_objectPath {d : Directory} {bucket key : String} {path : Path}
    (hroot : d.tree.realpath d.root = .ok root) (h : d.objectPath bucket key = .ok path) :
    ∃ above name, Accepted d.tree root path above name := by
  obtain ⟨hbucket, hkey, rfl, found?, hnear, hinside⟩ := objectPath_eq_ok hroot h
  obtain ⟨first, more, htext, hfirst, hups⟩ := ofText_of_checkKey hkey
  obtain ⟨-, hname⟩ := ofText_of_checkBucket hbucket
  have hpath := pathOf_eq d.root hbucket hkey
  obtain ⟨pre, name, trail, hends⟩ := Files.Path.exists_ends (show
    ∃ piece ∈ Path.ofText key, isBlank piece = false by
      rw [htext]
      exact ⟨first, List.mem_cons_self, hfirst⟩)
  have hends' : Ends (pathOf d.root bucket key) (rootBase d.root ++ bucket :: pre) name trail := by
    rw [hpath]
    exact (hends.append_left [bucket]).append_left (rootBase d.root)
  obtain ⟨above, hparent⟩ : ∃ above, (pathOf d.root bucket key).parent? = some above :=
    ⟨_, hends'.parent?⟩
  obtain ⟨hsome, hbase⟩ := leads_rootBase hroot (List.cons_ne_nil bucket (Path.ofText key))
  rw [← hpath] at hbase
  obtain ⟨k, hleads⟩ | hblocked := hbase
  · have hbelow : Below d.tree root (rootBase d.root) (pathOf d.root bucket key) := by
      refine ⟨hsome, ⟨k, hleads⟩, _, hpath, fun piece hpiece => ?_, bucket, List.mem_cons_self,
        hname.1⟩
      rcases List.mem_cons.1 hpiece with rfl | hpiece
      · exact hname.2
      · exact hups piece (htext ▸ hpiece)
    obtain ⟨found, rfl⟩ := Option.ne_none_iff_exists'.1 fun hnone =>
      nearest?_ne_none hbelow (Nat.le_refl _) (hnone ▸ hnear)
    obtain ⟨loc, hloc, hsuffix⟩ := inside_of_checkInside (hinside found rfl)
    have hpieces : ∀ piece ∈ bucket :: pre, piece ≠ ".." := by
      intro piece hpiece
      rcases List.mem_cons.1 hpiece with rfl | hpiece
      · exact hname.2
      · exact hups piece (htext ▸ hends.mem (List.mem_append_left _ hpiece))
    obtain ⟨habove, -, habove'⟩ :=
      hbelow.parent_below hends' hparent hpieces ⟨bucket, List.mem_cons_self, hname.1⟩
    exact ⟨above, name, ⟨_, habove⟩, ⟨_, found, loc, hnear, hloc, hsuffix⟩, ⟨_, trail, hends'⟩,
      hups name (htext ▸ hends.mem (by simp)), hparent, habove'⟩
  · rw [hpath] at hblocked hnear hends'
    exact (nearest?_of_blocked hblocked (List.cons_ne_nil _ _) hends'.isEmpty hnear).elim

end ChunkedUpload.Directory
