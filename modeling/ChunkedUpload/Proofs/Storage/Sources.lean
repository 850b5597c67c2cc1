import ChunkedUpload.Proofs.Files.Growth
import ChunkedUpload.Proofs.Storage.ObjectPaths

/-!
# Reading objects while another one is written

While an object is written, the tree has more directories than before and a temporary file. A path
that was accepted before leads there to a place inside the root, or to an entry that is new
(`Accepted.inside_or_new`). An object whose path was accepted before is found just if it was found
before, with the same content (`readFile_iff`), unless its path goes through the temporary name.
What is missing cannot appear: the check has seen that the nearest entry above it resolves, and
below a new directory there is nothing but the temporary file.
-/

namespace ChunkedUpload.Directory

open Files (Location Node Path Tree)
open Files.Path (isBlank)
open Files.Tree (Leads checkText linksMax start)

variable {t t' : Tree} {root : Location} {base p pre trail above : Path} {name temp : String}

/-- What is read with a path does not end in a blank piece. -/
theorem trail_eq_nil_of_found {n : Nat} {loc l : Location} {content : Bytes}
    (hends : p.Ends pre name trail)
    (h : t.locateFrom true n loc p = .ok (.found l (.file content))) : trail = [] := by
  cases trail using List.reverseRecOn with
  | nil => rfl
  | append_singleton front last =>
    have hlast : isBlank last = true := hends.trail last (by simp)
    have hp : p = (pre ++ name :: front) ++ [last] := by
      rw [hends.eq]
      simp
    rw [hp] at h
    rcases Files.Tree.leads_or_blocked t n loc (pre ++ name :: front) with
      ⟨k, d, hleads⟩ | ⟨error, -, hon⟩
    · rw [hleads.locateFrom (.inr rfl), Files.Tree.locateFrom_blank hlast,
        Files.Tree.locateFrom_nil] at h
      cases h
    · rw [hon true [last] (List.cons_ne_nil _ _)] at h
      cases h

/-- A path that has no entry has none in the directory that the path above leads to. -/
theorem node?_of_missing {d : Location} (hends : p.Ends pre name []) (hup : name ≠ "..")
    (hparent : p.parent? = some above) (htext : checkText p = .ok ())
    (hfits : name.utf8ByteSize ≤ Files.Tree.nameMax) (hleads : t.LeadsTo above d)
    (hmissing : ∀ node, t.lstat p ≠ .ok node) : t.node? (name :: d) = none := by
  obtain ⟨k, hpre⟩ := (Files.Tree.leadsTo_parent hends hparent).1 hleads
  have hname : Path.IsName name := ⟨hends.name, hup⟩
  have hwalk : t.locateFrom false linksMax (start t.here p) (pre ++ [name]) =
      t.locateFrom false k d [name] := hpre.locateFrom (.inl (List.cons_ne_nil _ _))
  rw [← hends.eq] at hwalk
  have hfound : ∀ l node, t.locateFrom false k d [name] ≠ .ok (.found l node) := by
    intro l node hfound
    apply hmissing node
    rw [Tree.lstat, Files.Tree.entry_eq htext, hwalk, hfound]
    rfl
  rcases hnode : t.node? (name :: d) with _ | _ | content | target
  · rfl
  · refine (hfound (name :: d) .dir ?_).elim
    rw [Files.Tree.locateFrom_dir hname hfits hnode, Files.Tree.locateFrom_nil]
  · refine (hfound (name :: d) (.file content) ?_).elim
    rw [Files.Tree.locateFrom_file hname hfits hnode, if_pos rfl]
  · refine (hfound (name :: d) (.link target) ?_).elim
    rw [Files.Tree.locateFrom_link_end hname hfits hnode]

/-! ## Where paths lead in a larger tree -/

/-- `t'` has all that `t` has, but for the bytes of files; what it has beyond that is no link,
except under the names in `odd`. -/
structure Gains (t : Tree) (odd : String → Prop) (t' : Tree) : Prop where
  here : t'.here = t.here
  kept : ∀ a node, t.node? a = some node →
    ∃ node', t'.node? a = some node' ∧ node.shape = node'.shape
  made : ∀ name loc target, ¬odd name → t.node? (name :: loc) = none →
    t'.node? (name :: loc) ≠ some (.link target)

namespace Gains

variable {l : Location} {node : Node} {odd : String → Prop} {t'' : Tree}

theorem refl (t : Tree) (odd : String → Prop) : Gains t odd t :=
  ⟨rfl, fun _ node h => ⟨node, h, rfl⟩,
    fun _ _ _ _ hnone hsome => by rw [hnone] at hsome; cases hsome⟩

theorem trans (h : Gains t odd t') (h' : Gains t' odd t'') : Gains t odd t'' := by
  refine ⟨h'.here.trans h.here, fun a node hnode => ?_, fun name loc target hodd hnone hlink => ?_⟩
  · obtain ⟨node', hnode', hshape⟩ := h.kept a node hnode
    obtain ⟨node'', hnode'', hshape'⟩ := h'.kept a node' hnode'
    exact ⟨node'', hnode'', hshape.trans hshape'⟩
  · cases hmiddle : t'.node? (name :: loc) with
    | none => exact h'.made name loc target hodd hmiddle hlink
    | some old =>
      obtain ⟨new, hnew, hshape⟩ := h'.kept _ _ hmiddle
      rw [hlink] at hnew
      cases hnew
      cases old <;> cases hshape
      exact h.made name loc _ hodd hnone hmiddle

/-- A path leads to the entry it led to. -/
theorem entry (h : Gains t odd t') {follow : Bool} (hentry : t.entry follow p = .ok (l, node)) :
    ∃ node', t'.entry follow p = .ok (l, node') ∧ node.shape = node'.shape := by
  obtain ⟨node', hfound, hshape⟩ := Files.Tree.locateFrom_found_of_related
    (r := fun node node' => node.shape = node'.shape) (fun _ _ => id) h.kept rfl
    (Files.Tree.locateFrom_of_entry hentry)
  refine ⟨node', ?_, hshape⟩
  rw [Files.Tree.entry_eq (Files.Tree.checkText_of_entry hentry), h.here, hfound]
  rfl

theorem leadsTo_of (h : Gains t odd t') {d : Location} (hleads : t.LeadsTo p d) :
    t'.LeadsTo p d := by
  obtain ⟨k, hleads⟩ := hleads
  refine ⟨k, ?_⟩
  rw [h.here]
  refine hleads.mono fun a node hnode hfile => ?_
  obtain ⟨node', hnode', hshape⟩ := h.kept a node hnode
  rw [hnode']
  cases node <;> cases node' <;> first | rfl | (exact absurd rfl (hfile _)) | cases hshape
  rfl

/-- What a path leads to that had no entry before is new, if all that the path above leads to is new
or was there before. -/
theorem found_of_missing (h : Gains t odd t') (hwell : t.WellFormed)
    (hends : p.Ends pre name []) (hup : name ≠ "..") (hparent : p.parent? = some above)
    (htext : checkText p = .ok ()) (hname : ¬odd name)
    (hmissing : ∀ node, t.lstat p ≠ .ok node)
    (habove : ∀ e, t'.LeadsTo above e → t.LeadsTo above e ∨ t.node? e = none)
    (hfound : t'.locateFrom true linksMax (start t'.here p) p = .ok (.found l node)) :
    t.node? l = none ∧ t'.node? l = some node ∧ l.head? = some name := by
  have hisName : Path.IsName name := ⟨hends.name, hup⟩
  rcases Files.Tree.leads_or_blocked t' linksMax (start t'.here p) pre with
    ⟨k, e, hpre⟩ | ⟨error, -, hon⟩
  · have hwalk : t'.locateFrom true linksMax (start t'.here p) (pre ++ [name]) =
        t'.locateFrom true k e [name] := hpre.locateFrom (.inr rfl)
    rw [← hends.eq, hfound] at hwalk
    by_cases hfits : name.utf8ByteSize ≤ Files.Tree.nameMax
    · have hfree : t.node? (name :: e) = none := by
        rcases habove e ((Files.Tree.leadsTo_parent hends hparent).2 ⟨k, hpre⟩) with hleads | hnew
        · exact node?_of_missing hends hup hparent htext hfits hleads hmissing
        · by_contra hsome
          rw [hwell.above hsome] at hnew
          cases hnew
      rcases hnode : t'.node? (name :: e) with _ | _ | content | target
      · rw [Files.Tree.locateFrom_missing hisName hfits hnode] at hwalk
        cases hwalk
      · rw [Files.Tree.locateFrom_dir hisName hfits hnode, Files.Tree.locateFrom_nil] at hwalk
        cases hwalk
        exact ⟨hfree, hnode, rfl⟩
      · rw [Files.Tree.locateFrom_file hisName hfits hnode, if_pos rfl] at hwalk
        cases hwalk
        exact ⟨hfree, hnode, rfl⟩
      · exact absurd hnode (h.made name e target hname hfree)
    · rw [Files.Tree.locateFrom_long hisName (Nat.not_le.1 hfits)] at hwalk
      cases hwalk
  · have hblocked := hon true [name] (List.cons_ne_nil _ _)
    rw [← hends.eq, hfound] at hblocked
    cases hblocked

/-- A path with an entry that resolves leads to where it led to. -/
theorem entry_of_lstat (h : Gains t odd t') {depth : Nat} {found : Path × Node} {loc : Location}
    (hnear : nearest? t depth p = .ok (some found)) (hloc : t.realpath found.1 = .ok loc)
    (hstat : ∃ node, t.lstat p = .ok node) :
    ∃ node node', t.entry true p = .ok (loc, node) ∧ t'.entry true p = .ok (loc, node') ∧
      node.shape = node'.shape := by
  obtain ⟨other, hother⟩ := hstat
  rcases nearest?_eq_some hnear with ⟨-, hown⟩ | ⟨⟨error, herror, -⟩, -⟩
  · rw [hown, Tree.realpath] at hloc
    cases hentry : t.entry true p with
    | ok entry =>
      obtain ⟨l, node⟩ := entry
      rw [hentry] at hloc
      cases hloc
      obtain ⟨node', hentry', hshape⟩ := h.entry hentry
      exact ⟨node, node', rfl, hentry', hshape⟩
    | error error =>
      rw [hentry] at hloc
      cases hloc
  · rw [hother] at herror
    cases herror

/-- Where the nearest entry resolves, a path that leads to a directory of the larger tree did so
before, or the directory is new. -/
theorem leadsTo (h : Gains t odd t') (hwell : t.WellFormed)
    (hblank : ∀ piece, isBlank piece = true → ¬odd piece) (length : Nat) :
    ∀ {p pre : Path} {name : String} {depth : Nat} {found : Path × Node} {d : Location},
      p.length ≤ length → Below t root base p → p.Ends pre name [] →
      nearest? t depth p = .ok (some found) → (∃ l, t.realpath found.1 = .ok l) →
      (∀ piece ∈ p, ¬odd piece) → checkText p = .ok () → t'.LeadsTo p d →
      t.LeadsTo p d ∨ t.node? d = none := by
  induction length with
  | zero =>
    intro p pre name depth found d hlength _ hends
    rw [hends.eq] at hlength
    simp at hlength
  | succ length ih =>
    intro p pre name depth found d hlength hbelow hends hnear hloc hodd htext hleads
    by_cases hstat : ∃ node, t.lstat p = .ok node
    · obtain ⟨loc, hloc⟩ := hloc
      obtain ⟨node, node', hentry, hentry', hshape⟩ := h.entry_of_lstat hnear hloc hstat
      have hdir : t'.isDir p = true := Files.Tree.isDir_iff.2 ⟨htext, d, hleads⟩
      have hdir' : t.isDir p = true := by
        rw [Tree.isDir, hentry'] at hdir
        rw [Tree.isDir, hentry]
        cases node' <;> first | (cases hdir; done) | (cases node <;> first | rfl | cases hshape)
      obtain ⟨-, e, hleads'⟩ := Files.Tree.isDir_iff.1 hdir'
      obtain rfl := hleads.unique (h.leadsTo_of hleads')
      exact .inl hleads'
    · have hmissing : ∀ node, t.lstat p ≠ .ok node := fun node hnode => hstat ⟨node, hnode⟩
      obtain ⟨above, hparent⟩ : ∃ above, p.parent? = some above := ⟨_, hends.parent?⟩
      obtain ⟨hsome, hcases⟩ := hbelow.parent hends hparent
      obtain ⟨depth', hnear'⟩ := nearest?_above hnear hparent hmissing
      have habove : ∀ e, t'.LeadsTo above e → t.LeadsTo above e ∨ t.node? e = none := by
        intro e hleads'
        rcases hcases with hroot | ⟨hbelow', hshorter, pre', name', hends'⟩
        · exact .inl ((h.leadsTo_of hroot).unique hleads' ▸ hroot)
        · refine ih (by omega) hbelow' hends' hnear' hloc (fun piece hmem => ?_)
            (Files.Tree.checkText_parent hends hparent htext hsome) hleads'
          by_cases hpiece : isBlank piece = true
          · exact hblank piece hpiece
          · exact hodd piece (Files.Path.mem_of_parent hparent hmem (Bool.eq_false_iff.2 hpiece))
      obtain ⟨k, hleads⟩ := hleads
      exact .inr (h.found_of_missing hwell hends (hbelow.name_ne_up hends) hparent htext
        (hodd name (hends.mem (by simp))) hmissing habove hleads.found).1

end Gains

/-- An accepted path leads inside the root or to an entry that is new. -/
theorem Accepted.inside_or_new {path : Path} {l : Location} {content : Bytes} {odd : String → Prop}
    (haccepted : Accepted t root path above name) (h : Gains t odd t') (hwell : t.WellFormed)
    (hblank : ∀ piece, isBlank piece = true → ¬odd piece) (hodd : ∀ piece ∈ path, ¬odd piece)
    (hentry : t'.entry true path = .ok (l, .file content)) :
    (root <:+ l ∧ ∃ node, t.entry true path = .ok (l, node)) ∨
      t.node? l = none ∧ l.head? = some name ∧ name ∈ path := by
  obtain ⟨depth, found, loc, hnear, hloc, hinside⟩ := haccepted.nearest
  obtain ⟨pre, trail, hends⟩ := haccepted.ends
  by_cases hstat : ∃ node, t.lstat path = .ok node
  · obtain ⟨node, node', hthis, hthat, -⟩ := h.entry_of_lstat hnear hloc hstat
    rw [hentry] at hthat
    cases hthat
    exact .inl ⟨hinside, node, hthis⟩
  · have hmissing : ∀ node, t.lstat path ≠ .ok node := fun node hnode => hstat ⟨node, hnode⟩
    obtain ⟨pre', name', habove⟩ := haccepted.aboveEnds
    obtain ⟨base, hbelow⟩ := haccepted.below
    obtain ⟨depth', hnear'⟩ := nearest?_above hnear haccepted.parent hmissing
    have htext := Files.Tree.checkText_of_entry hentry
    have hfound := Files.Tree.locateFrom_of_entry hentry
    obtain rfl := trail_eq_nil_of_found hends hfound
    have hname : name ∈ path := hends.mem (by simp)
    have hleads : ∀ e, t'.LeadsTo above e → t.LeadsTo above e ∨ t.node? e = none := by
      intro e
      refine h.leadsTo hwell hblank above.length (Nat.le_refl _) hbelow habove hnear'
        ⟨loc, hloc⟩ (fun piece hmem => ?_)
        (Files.Tree.checkText_parent hends haccepted.parent htext habove.isEmpty)
      by_cases hpiece : isBlank piece = true
      · exact hblank piece hpiece
      · exact hodd piece
          (Files.Path.mem_of_parent haccepted.parent hmem (Bool.eq_false_iff.2 hpiece))
    obtain ⟨hnew, -, hhead⟩ := h.found_of_missing hwell hends haccepted.name haccepted.parent htext
      (hodd name hname) hmissing hleads hfound
    exact .inr ⟨hnew, hhead, hname⟩

/-! ## Beside a temporary file -/

/-- `t'` has all that `t` has, and beyond that directories and entries of the name `temp`. -/
structure Staging (t : Tree) (temp : String) (t' : Tree) : Prop where
  here : t'.here = t.here
  kept : ∀ a node, t.node? a = some node → t'.node? a = some node
  made : ∀ a node, t.node? a = none → t'.node? a = some node → node = .dir ∨ a.head? = some temp

namespace Staging

theorem gains (h : Staging t temp t') : Gains t (· = temp) t' := by
  refine ⟨h.here, fun a node hnode => ⟨node, h.kept a node hnode, rfl⟩,
    fun other loc target hother hnone hlink => ?_⟩
  rcases h.made _ _ hnone hlink with heq | heq
  · cases heq
  · exact hother (Option.some.inj heq)

/-- An accepted path has the content it had before, and none if it had none. -/
theorem readFile_iff (h : Staging t temp t') (hwell : t.WellFormed) (hblank : isBlank temp = false)
    {path : Path} (haccepted : Accepted t root path above name) (htemp : temp ∉ path)
    (content : Bytes) : t'.readFile path = .ok content ↔ t.readFile path = .ok content := by
  rw [Files.Tree.readFile_eq_ok, Files.Tree.readFile_eq_ok]
  constructor
  · rintro ⟨l, hentry⟩
    have hnamed : ∀ piece, isBlank piece = true → piece ≠ temp := by
      rintro piece hpiece rfl
      rw [hblank] at hpiece
      cases hpiece
    have havoids : ∀ piece ∈ path, piece ≠ temp := fun piece hpiece heq => htemp (heq ▸ hpiece)
    rcases haccepted.inside_or_new h.gains hwell hnamed havoids hentry with
      ⟨-, node, hbefore⟩ | ⟨hnew, hhead, hname⟩
    · have hkept := Files.Tree.entry_of_kept h.here h.kept hbefore
      rw [hentry] at hkept
      cases hkept
      exact ⟨l, hbefore⟩
    · have hnode := Files.Tree.node?_of_found (Files.Tree.locateFrom_of_entry hentry)
      rcases h.made l _ hnew hnode with hdir | htop
      · cases hdir
      · rw [hhead] at htop
        exact absurd (Option.some.inj htop) (havoids name hname)
  · rintro ⟨l, hentry⟩
    exact ⟨l, Files.Tree.entry_of_kept h.here h.kept hentry⟩

end Staging

end ChunkedUpload.Directory
