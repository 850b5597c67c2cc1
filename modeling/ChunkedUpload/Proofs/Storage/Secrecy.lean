import ChunkedUpload.Proofs.Files.Alike
import ChunkedUpload.Proofs.Files.Moved
import ChunkedUpload.Proofs.Storage.Containment
import ChunkedUpload.Proofs.Storage.Histories
import ChunkedUpload.Proofs.Storage.Outcomes

/-!
# Nothing outside of the root is read

Two directories that differ only in the bytes of files outside of the root cannot be told apart by
`get` and `compose`: both answer the same, and what `compose` leaves behind its target is the same
(`reads_only_inside`). The checks and the edits look at no bytes, so the two runs stay side by side
(`Beside`). A source is read when there are new entries already; its path was accepted before, so it
leads inside the root or to one of the new entries, which are the same in both runs.
-/

namespace ChunkedUpload

/-! ## Two runs side by side -/

namespace Call

variable {σ α β : Type} {call call' : Call σ α} {s s' : σ} {good : α → σ → σ → Prop}
  {bad : σ → σ → Prop}

/-- From two states, two calls end alike: with the same value and two states in `good`, or in the
same way without one and with two states in `bad`. -/
def EndsAlike (call call' : Call σ α) (s s' : σ) (good : α → σ → σ → Prop) (bad : σ → σ → Prop) :
    Prop :=
  match call s, call' s' with
  | .ok a t, .ok a' t' => a = a' ∧ good a t t'
  | .error halt t, .error halt' t' => halt = halt' ∧ bad t t'
  | _, _ => False

namespace EndsAlike

theorem mono {good' : α → σ → σ → Prop} {bad' : σ → σ → Prop}
    (h : EndsAlike call call' s s' good bad) (hgood : ∀ a t t', good a t t' → good' a t t')
    (hbad : ∀ t t', bad t t' → bad' t t') : EndsAlike call call' s s' good' bad' := by
  unfold EndsAlike at h ⊢
  split at h
  · exact ⟨h.1, hgood _ _ _ h.2⟩
  · exact ⟨h.1, hbad _ _ h.2⟩
  · exact h

theorem bind {next next' : α → Call σ β} {goodNext : β → σ → σ → Prop}
    (h : EndsAlike call call' s s' good bad)
    (hnext : ∀ a t t', good a t t' → EndsAlike (next a) (next' a) t t' goodNext bad) :
    EndsAlike (call >>= next) (call' >>= next') s s' goodNext bad := by
  unfold EndsAlike at h ⊢
  cases hc : call s <;> cases hc' : call' s' <;> rw [hc, hc'] at h
  · obtain ⟨rfl, h⟩ := h
    rw [bind_of_ok hc, bind_of_ok hc']
    exact hnext _ _ _ h
  · exact h.elim
  · exact h.elim
  · rw [bind_of_error hc, bind_of_error hc']
    exact h

theorem get_bind {next next' : σ → Call σ α} (h : EndsAlike (next s) (next' s') s s' good bad) :
    EndsAlike (MonadState.get >>= next) (MonadState.get >>= next') s s' good bad := h

theorem pure {a : α} (h : good a s s') : EndsAlike (Pure.pure a) (Pure.pure a) s s' good bad :=
  ⟨rfl, h⟩

theorem ofExcept {outcome : Except StorageError α} (hgood : ∀ a, outcome = .ok a → good a s s')
    (hbad : bad s s') :
    EndsAlike (Call.ofExcept outcome) (Call.ofExcept outcome) s s' good bad := by
  cases outcome with
  | ok a => exact ⟨rfl, hgood a rfl⟩
  | error error => exact ⟨rfl, hbad⟩

/-- Both runs get through the same check, or fail at it. -/
theorem checked (outcome : Except StorageError α) (hbad : bad s s') :
    EndsAlike (Call.ofExcept outcome) (Call.ofExcept outcome) s s'
      (fun a t t' => outcome = .ok a ∧ t = s ∧ t' = s') bad :=
  .ofExcept (fun _ ha => ⟨ha, rfl, rfl⟩) hbad

theorem outcome (h : EndsAlike call call' s s' good bad) :
    Call.outcome (call s) = Call.outcome (call' s') := by
  unfold EndsAlike at h
  cases hc : call s <;> cases hc' : call' s' <;> rw [hc, hc'] at h
  · exact congrArg Except.ok h.1
  · exact h.elim
  · exact h.elim
  · exact congrArg Except.error h.1

theorem final {P : σ → σ → Prop} (h : EndsAlike call call' s s' (fun _ => P) P) :
    P (Call.final (call s)) (Call.final (call' s')) := by
  unfold EndsAlike at h
  cases hc : call s <;> cases hc' : call' s' <;> rw [hc, hc'] at h
  · exact h.2
  · exact h.elim
  · exact h.elim
  · exact h.2

theorem onFailure {undo : σ → σ} (h : EndsAlike call call' s s' good bad)
    (hundo : ∀ t t', bad t t' → bad (undo t) (undo t')) :
    EndsAlike (Call.onFailure undo call) (Call.onFailure undo call') s s' good bad := by
  unfold EndsAlike Call.onFailure at *
  cases hc : call s <;> cases hc' : call' s' <;> rw [hc, hc'] at h
  · exact h
  · exact h.elim
  · exact h.elim
  · rename_i halt t halt' t'
    obtain ⟨rfl, h⟩ := h
    cases halt with
    | failed error => exact ⟨rfl, hundo t t' h⟩
    | abandoned => exact ⟨rfl, h⟩

end EndsAlike

end Call

namespace Directory

open Call (EndsAlike)
open Files (Location Node Path Tree)
open Files.Tree (Alike checkText linksMax start)

variable {t t' : Tree} {root : Location} {path above : Path} {bucket key name : String}
  {same : Location → Prop}

/-! ## The checks -/

theorem nearest?_alike (h : Alike same t t') : ∀ (depth : Nat) (p : Path),
    nearest? t depth p = nearest? t' depth p ∨
      ∃ q node node', nearest? t depth p = .ok (some (q, node)) ∧
        nearest? t' depth p = .ok (some (q, node')) ∧ node.shape = node'.shape := by
  intro depth
  induction depth with
  | zero =>
    intro p
    unfold nearest? Tree.lstat
    rcases h.entry false p with ⟨error, hthis, hthat⟩ | ⟨l, node, node', hthis, hthat, hshape⟩
    · simp only [hthis, hthat, Except.map, true_or]
    · simp only [hthis, hthat, Except.map]
      exact .inr ⟨p, node, node', rfl, rfl, hshape⟩
  | succ depth ih =>
    intro p
    unfold nearest? Tree.lstat
    rcases h.entry false p with ⟨error, hthis, hthat⟩ | ⟨l, node, node', hthis, hthat, hshape⟩
    · simp only [hthis, hthat, Except.map]
      by_cases hkind : error.kind = .notFound
      · simp only [if_pos hkind]
        cases p.parent? with
        | none => exact .inl rfl
        | some above => exact ih above
      · simp only [if_neg hkind, true_or]
    · simp only [hthis, hthat, Except.map]
      exact .inr ⟨p, node, node', rfl, rfl, hshape⟩

theorem checkInside_alike (h : Alike same t t') (root : Location) (key : String) (p : Path)
    {node node' : Node} (hshape : node.shape = node'.shape) :
    checkInside t root key p node = checkInside t' root key p node' := by
  unfold checkInside
  rw [← h.realpath p]
  cases t.realpath p with
  | ok loc => rfl
  | error error => cases node <;> cases node' <;> first | rfl | cases hshape

/-- The same paths are accepted, and the others refused with the same errors. -/
theorem objectPath_alike {d d' : Directory} (hroot : d.root = d'.root)
    (h : Alike same d.tree d'.tree) (bucket key : String) :
    d.objectPath bucket key = d'.objectPath bucket key := by
  unfold objectPath
  rw [← hroot, ← h.realpath d.root]
  refine bind_congr fun _ => bind_congr fun _ => bind_congr fun root => ?_
  rcases nearest?_alike h (pathOf d.root bucket key).length (pathOf d.root bucket key) with
    heq | ⟨q, node, node', hthis, hthat, hshape⟩
  · rw [← heq]
    refine bind_congr fun found => ?_
    cases found with
    | none => rfl
    | some found =>
      dsimp only
      rw [checkInside_alike h root key found.1 rfl]
  · rw [hthis, hthat]
    show (checkInside d.tree root key q node >>= _) = (checkInside d'.tree root key q node' >>= _)
    rw [checkInside_alike h root key q hshape]

theorem objectPaths_alike {d d' : Directory} (hroot : d.root = d'.root)
    (h : Alike same d.tree d'.tree) (bucket : String) :
    ∀ keys : List String, d.objectPaths bucket keys = d'.objectPaths bucket keys
  | [] => rfl
  | key :: keys => by
    rw [objectPaths, objectPaths, objectPath_alike hroot h, objectPaths_alike hroot h bucket keys]

/-! ## The calls -/

/-- Two directories that differ in bytes outside of the root of `d` at most. -/
def Level (d s s' : Directory) : Prop := Alike (fun a => ¬d.Outside a) s.tree s'.tree

/-- Two runs that began at `d` and at one that differs in bytes outside of the root, and have made
new entries since. -/
structure SideBySide (d s s' : Directory) : Prop where
  root : s.root = s'.root
  ticket : s.ticket = s'.ticket
  alike : Alike (fun a => ¬d.Outside a ∨ d.tree.node? a = none) s.tree s'.tree
  gains : Gains d.tree (fun _ => False) s.tree

theorem SideBySide.level {d s s' : Directory} (h : SideBySide d s s') : Level d s s' :=
  h.alike.mono fun _ => .inl

section

variable {d s s' : Directory} {good : Unit → Directory → Directory → Prop}
  {bad : Directory → Directory → Prop} {sources : List String} {destination : String}

theorem onTree_alike {operation : Tree → Except IoError Tree}
    (h : (∃ error, operation s.tree = .error error ∧ operation s'.tree = .error error) ∨
      ∃ u u', operation s.tree = .ok u ∧ operation s'.tree = .ok u' ∧
        good () { s with tree := u } { s' with tree := u' }) (hbad : bad s s') :
    EndsAlike (onTree operation) (onTree operation) s s' good bad := by
  unfold EndsAlike onTree
  rcases h with ⟨error, hthis, hthat⟩ | ⟨u, u', hthis, hthat, hgood⟩
  · rw [hthis, hthat]
    exact ⟨rfl, hbad⟩
  · rw [hthis, hthat]
    exact ⟨rfl, hgood⟩

theorem Gains.of_grows {odd : String → Prop} {among : Path → Prop}
    (h : Files.Tree.Grows t among [] t') : Gains t odd t' :=
  ⟨h.here, fun a node hnode => ⟨node, h.keeps a node hnode, rfl⟩,
    fun _ _ _ _ hnone hlink => by cases (h.made List.not_mem_nil hnone hlink).1⟩

theorem Gains.insert_file {odd : String → Prop} {l : Location}
    (hnode : t.node? l = none ∨ ∃ old, t.node? l = some (.file old)) (content : Bytes) :
    Gains t odd (t.insert l (.file content)) := by
  refine ⟨rfl, fun a node ha => ?_, fun name loc target _ hnone hlink => ?_⟩
  · rw [Files.Tree.node?_insert]
    by_cases hl : a ≠ [] ∧ a = l
    · rw [if_pos hl]
      rw [← hl.2, ha] at hnode
      rcases hnode with hnone | ⟨old, hold⟩
      · cases hnone
      · cases hold
        exact ⟨_, rfl, rfl⟩
    · rw [if_neg hl]
      exact ⟨node, ha, rfl⟩
  · rw [Files.Tree.node?_insert] at hlink
    split at hlink
    · cases hlink
    · rw [hnone] at hlink
      cases hlink

theorem ensureParent_alike (h : SideBySide d s s') (path : Path) :
    EndsAlike (ensureParent path) (ensureParent path) s s' (fun _ => SideBySide d) (Level d) := by
  unfold EndsAlike ensureParent
  cases path.parent? with
  | none => exact ⟨rfl, h⟩
  | some above =>
    dsimp only
    obtain ⟨u', hthat, halike⟩ := h.alike.makeDirAll above
    have hgains := h.gains.trans (.of_grows (Files.Tree.makeDirAll_grows above s.tree))
    rw [hthat]
    rcases hthis : s.tree.makeDirAll above with ⟨result, u⟩
    rw [hthis] at hgains halike
    cases result with
    | error error => exact ⟨rfl, halike.mono fun _ => .inl⟩
    | ok => exact ⟨rfl, h.root, h.ticket, halike, hgains⟩

theorem writeFile_alike (h : SideBySide d s s') (temp : Path) (content : Bytes) :
    EndsAlike (onTree (Tree.writeFile temp content)) (onTree (Tree.writeFile temp content)) s s'
      (fun _ u u' => SideBySide d u u' ∧ s.tree.writeFile temp content = .ok u.tree ∧
        s'.tree.writeFile temp content = .ok u'.tree) (Level d) := by
  refine onTree_alike ?_ h.level
  rcases h.alike.writeFile temp content with hboth | ⟨l, hthis, hthat⟩
  · exact .inl hboth
  · refine .inr ⟨_, _, hthis, hthat, ⟨h.root, h.ticket, ?_, ?_⟩, hthis, hthat⟩
    · exact (h.alike.insert l (.file content)).mono fun _ => .inl
    · obtain ⟨-, l', hopens, heq⟩ := Files.Tree.writeFile_eq_ok.1 hthis
      show Gains d.tree _ (s.tree.insert l (.file content))
      rw [heq]
      exact h.gains.trans (.insert_file hopens.node? content)

/-! ## Reading the sources -/

/-- A path that was accepted leads to bytes that are the same in both runs. -/
theorem contentOf_alike (h : SideBySide d s s') (hwell : d.tree.WellFormed) {source : String}
    (hpath : d.objectPath bucket source = .ok path) (key : String) :
    contentOf s.tree key path = contentOf s'.tree key path := by
  obtain ⟨root, above, name, hroot, -, -, haccepted⟩ := exists_accepted hpath
  unfold contentOf
  rw [h.alike.readFile fun l content hentry => ?_]
  rcases haccepted.inside_or_new h.gains hwell (fun _ _ => id) (fun _ _ => id) hentry with
    ⟨hinside, -⟩ | ⟨hnew, -⟩
  · exact .inl fun hout => hout root hroot hinside
  · exact .inr hnew

theorem gather_alike (h : SideBySide d s s') (hwell : d.tree.WellFormed) :
    ∀ {sources : List String} {paths : List (String × Path)},
      d.objectPaths bucket sources = .ok paths → gather s.tree paths = gather s'.tree paths
  | [], paths, hpaths => by
    cases hpaths
    rfl
  | source :: sources, paths, hpaths => by
    simp only [objectPaths, bind, Except.bind] at hpaths
    split at hpaths
    · cases hpaths
    rename_i path hpath
    split at hpaths
    · cases hpaths
    rename_i paths' hpaths'
    cases hpaths
    rw [gather, gather, contentOf_alike h hwell hpath, gather_alike h hwell hpaths']

/-! ## Moving the file into place -/

/-- What is moved is the same, and so is what is behind the path that it was moved to. -/
theorem rename_alike {temp : Path} {bytes : Bytes} {nameS : String} {preS preT trailT : Path}
    (h : SideBySide d s s') (hendsS : temp.Ends preS nameS []) (hupS : nameS ≠ "..")
    (haboveS : temp.parent? = some above) (hendsT : path.Ends preT name trailT) (hupT : name ≠ "..")
    (haboveT : path.parent? = some above) (hwrite : t.writeFile temp bytes = .ok s.tree)
    (hwrite' : t'.writeFile temp bytes = .ok s'.tree) :
    EndsAlike (onTree (Tree.rename temp path)) (onTree (Tree.rename temp path)) s s'
      (fun _ u u' => Level d u u' ∧ u.tree.readFile path = u'.tree.readFile path) (Level d) := by
  refine onTree_alike ?_ h.level
  rcases h.alike.rename temp path with hboth | ⟨slot, l, node, node', hslot, hplain, hnode, hnode',
    hthis, hthat⟩
  · exact .inl hboth
  · obtain ⟨hleads, hname, -⟩ := Files.Tree.slot_plain hendsS haboveS hslot hplain
    obtain ⟨hleads', -, -⟩ :=
      Files.Tree.slot_plain hendsS haboveS (h.alike.slot temp ▸ hslot) hplain
    have hsame : node = node' := by
      have hshape := h.alike.shape slot.loc
      have hloc : slot.loc = nameS :: slot.dir := congrArg (· :: slot.dir) hname
      rw [hnode, hnode'] at hshape
      rw [hloc] at hnode hnode'
      cases node <;> cases node' <;> first | rfl | (cases hshape; done) | skip
      · rw [Files.Tree.content_of_writeFile hendsS hupS haboveS hwrite hleads hnode,
          Files.Tree.content_of_writeFile hendsS hupS haboveS hwrite' hleads' hnode']
      · cases hshape
        rfl
    subst hsame
    have halike := ((h.alike.erase slot.loc).insert l node)
    refine .inr ⟨_, _, hthis, hthat, halike.mono fun _ ha => .inl (.inl ha), ?_⟩
    refine halike.readFile_of_bytes fun l' content content' hentry hentry' => ?_
    rw [Files.Tree.content_of_moved hendsS hupS haboveS hendsT hupT haboveT hwrite hthis hentry,
      Files.Tree.content_of_moved hendsS hupS haboveS hendsT hupT haboveT hwrite' hthat hentry']

theorem replaceFile_alike {content : Call Directory Bytes} (h : SideBySide d s s')
    (haccepted : Accepted t root path above name)
    (hcontent : ∀ u u', SideBySide d u u' → EndsAlike content content u u'
      (fun _ v v' => v = u ∧ v' = u') fun v v' => v = u ∧ v' = u') :
    EndsAlike (replaceFile path (writeAll content)) (replaceFile path (writeAll content)) s s'
      (fun _ u u' => Level d u u' ∧ u.tree.readFile path = u'.tree.readFile path) (Level d) := by
  refine (ensureParent_alike h path).bind fun _ u u' hu => ?_
  obtain ⟨hendsS, haboveS⟩ := haccepted.temp u.ticket
  obtain ⟨pre, trail, hendsT⟩ := haccepted.ends
  have htemp : EndsAlike (tempPath path) (tempPath path) u u'
      (fun temp v v' => temp = tempOf path u.ticket ∧ SideBySide d v v') (Level d) := by
    refine ⟨?_, rfl, hu.root, congrArg (· + 1) hu.ticket, hu.alike, hu.gains⟩
    rw [hu.ticket]
  refine htemp.bind ?_
  rintro _ v v' ⟨rfl, hv⟩
  refine (writeFile_alike hv _ []).bind fun _ w w' ⟨hw, _⟩ => ?_
  refine EndsAlike.onFailure ?_ fun x x' hx => ?_
  · have hfill : EndsAlike (writeAll content (tempOf path u.ticket))
        (writeAll content (tempOf path u.ticket)) w w'
        (fun _ x x' => SideBySide d x x' ∧ ∃ bytes,
          w.tree.writeFile (tempOf path u.ticket) bytes = .ok x.tree ∧
            w'.tree.writeFile (tempOf path u.ticket) bytes = .ok x'.tree) (Level d) := by
      refine ((hcontent w w' hw).mono (fun _ _ _ h => h) ?_).bind ?_
      · rintro _ _ ⟨rfl, rfl⟩
        exact hw.level
      rintro bytes _ _ ⟨rfl, rfl⟩
      exact (writeFile_alike hw _ bytes).bind fun _ x x' ⟨hx, hwrites⟩ =>
        EndsAlike.pure ⟨hx, bytes, hwrites⟩
    refine hfill.bind fun size x x' ⟨hx, bytes, hwrite, hwrite'⟩ => ?_
    refine (rename_alike hx hendsS (Files.TempName.isName_of name u.ticket).2 haboveS hendsT
      haccepted.name haccepted.parent hwrite hwrite').bind fun _ y y' hy => ?_
    exact EndsAlike.pure hy
  · unfold discardTemp
    rcases Alike.removeFile hx (tempOf path u.ticket) with
      ⟨error, hthis, hthat⟩ | ⟨l, hthis, hthat⟩
    · rw [hthis, hthat]
      exact hx
    · rw [hthis, hthat]
      exact Alike.erase hx l

/-! ## Whole requests -/

theorem read_alike {d' : Directory} (hwell : d.tree.WellFormed) (h : SideBySide d d d')
    (bucket key : String) :
    EndsAlike (Directory.read bucket key) (Directory.read bucket key) d d'
      (fun _ => Level d) (Level d) := by
  refine EndsAlike.get_bind ?_
  rw [← objectPath_alike h.root h.alike]
  refine (EndsAlike.checked _ h.level).bind ?_
  rintro path _ _ ⟨hpath, rfl, rfl⟩
  refine EndsAlike.get_bind ?_
  rw [← contentOf_alike h hwell hpath key]
  exact .ofExcept (fun _ _ => h.level) h.level

theorem compose_alike {d' : Directory} (hwell : d.tree.WellFormed) (h : SideBySide d d d')
    (bucket : String) (sources : List String) (destination : String) :
    EndsAlike (Directory.compose bucket sources destination)
      (Directory.compose bucket sources destination) d d'
      (fun _ s s' => Level d s s' ∧ s.tree.readFile (pathOf d.root bucket destination) =
        s'.tree.readFile (pathOf d.root bucket destination)) (Level d) := by
  refine (EndsAlike.checked _ h.level).bind ?_
  rintro _ _ _ ⟨-, rfl, rfl⟩
  refine EndsAlike.get_bind ?_
  rw [← objectPaths_alike h.root h.alike]
  refine (EndsAlike.checked _ h.level).bind ?_
  rintro paths _ _ ⟨hpaths, rfl, rfl⟩
  refine EndsAlike.get_bind ?_
  rw [← objectPath_alike h.root h.alike]
  refine (EndsAlike.checked _ h.level).bind ?_
  rintro path _ _ ⟨hpath, rfl, rfl⟩
  obtain ⟨root, above, name, -, hown, -, haccepted⟩ := exists_accepted hpath
  rw [← hown]
  refine (replaceFile_alike h haccepted fun u u' hu => EndsAlike.get_bind ?_).bind
    fun size v v' hv => EndsAlike.pure hv
  rw [← gather_alike hu hwell hpaths]
  exact .ofExcept (fun _ _ => ⟨rfl, rfl⟩) ⟨rfl, rfl⟩

end

theorem SideBySide.start {d d' : Directory} (hroot : d.root = d'.root)
    (hticket : d.ticket = d'.ticket) (h : Level d d d') : SideBySide d d d' := by
  refine ⟨hroot, hticket, ⟨h.here, h.shape, fun a ha => ?_⟩, .refl _ _⟩
  rcases ha with hinside | hnone
  · exact h.same a hinside
  · rw [h.node?_eq (by rw [hnone]; nofun)]

/-- **Nothing outside of the root is read.** Of two directories that differ in the bytes of files
outside of the root, `get` and `compose` answer the same, and `compose` leaves the same behind its
target. The directories differ no further afterwards. -/
theorem reads_only_inside (d d' : Directory) (hwell : d.tree.WellFormed)
    (hroot : d.root = d'.root) (hticket : d.ticket = d'.ticket)
    (h : Alike (fun a => ¬d.Outside a) d.tree d'.tree) :
    (∀ bucket key, Call.outcome (ObjectStore.get bucket key d) =
      Call.outcome (ObjectStore.get bucket key d')) ∧
    ∀ bucket sources destination,
      Call.outcome (ObjectStore.compose bucket sources destination d) =
        Call.outcome (ObjectStore.compose bucket sources destination d') ∧
      (∀ object s s', ObjectStore.compose bucket sources destination d = .ok object s →
        ObjectStore.compose bucket sources destination d' = .ok object s' →
          s.tree.readFile (pathOf d.root bucket destination) =
            s'.tree.readFile (pathOf d.root bucket destination)) ∧
      Alike (fun a => ¬d.Outside a)
        (Call.final (ObjectStore.compose bucket sources destination d)).tree
        (Call.final (ObjectStore.compose bucket sources destination d')).tree := by
  have hstart := SideBySide.start hroot hticket h
  refine ⟨fun bucket key => (read_alike hwell hstart bucket key).outcome,
    fun bucket sources destination => ?_⟩
  have hends := compose_alike hwell hstart bucket sources destination
  refine ⟨hends.outcome, fun object s s' hs hs' => ?_,
    (hends.mono (fun _ _ _ h => h.1) fun _ _ h => h).final⟩
  have hok : Directory.compose bucket sources destination d = .ok object s := hs
  have hok' : Directory.compose bucket sources destination d' = .ok object s' := hs'
  rw [EndsAlike, hok, hok'] at hends
  exact hends.2.2

/-- A secret beside the root, and a link in the bucket that leads to it. -/
def guarded (secret : Bytes) : Directory where
  tree := { entries := [
    (["outside"], .dir), (["secret", "outside"], .file secret),
    (["root"], .dir), (["b", "root"], .dir), (["t", "b", "root"], .file [1]),
    (["link", "b", "root"], .link ["..", "..", "outside"])] }
  root := ["root"]

theorem level_guarded (secret other : Bytes) :
    Alike (fun a => ¬(guarded secret).Outside a) (guarded secret).tree (guarded other).tree := by
  have hoff : ∀ a, a ≠ ["secret", "outside"] →
      (guarded secret).tree.node? a = (guarded other).tree.node? a := by
    intro a ha
    simp [guarded, Tree.node?, List.lookup_cons, beq_false_of_ne ha]
  refine ⟨rfl, fun a => ?_, fun a hinside => ?_⟩
  · by_cases ha : a = ["secret", "outside"]
    · rw [ha]
      rfl
    · rw [hoff a ha]
  · refine hoff a ?_
    rintro rfl
    refine hinside fun root hroot => ?_
    have hroot' : (guarded secret).tree.realpath (guarded secret).root = .ok ["root"] := by cbv
    rw [hroot'] at hroot
    cases hroot
    decide

theorem reads_only_inside_guarded :
    (guarded [1]).tree.WellFormed ∧
      Alike (fun a => ¬(guarded [1]).Outside a) (guarded [1]).tree (guarded [2]).tree ∧
      (guarded [1]).tree.readFile ["root", "b", "link", "secret"] ≠
        (guarded [2]).tree.readFile ["root", "b", "link", "secret"] ∧
      Call.outcome (ObjectStore.get "b" "link/secret" (guarded [1])) =
        Call.outcome (ObjectStore.get "b" "link/secret" (guarded [2])) ∧
      Call.outcome (ObjectStore.compose "b" ["t", "link/secret"] "t" (guarded [1])) =
        Call.outcome (ObjectStore.compose "b" ["t", "link/secret"] "t" (guarded [2])) := by
  have hwell : (guarded [1]).tree.WellFormed := .of_entries rfl (by decide)
  have hboth := reads_only_inside (guarded [1]) (guarded [2]) hwell rfl rfl (level_guarded [1] [2])
  refine ⟨hwell, level_guarded [1] [2], ?_, hboth.1 "b" "link/secret",
    (hboth.2 "b" ["t", "link/secret"] "t").1⟩
  cbv
  decide

end Directory

end ChunkedUpload
