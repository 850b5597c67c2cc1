import Mathlib
import ChunkedUpload.Proofs.Storage.Replacing
import ChunkedUpload.Proofs.Storage.Requests

/-!
# What a request touches

Only the entry that a path resolves to is looked at before a write, and a link outside the root can
lead back into it. A request gets out of the root just if it replaces or removes such a link
(`Escapes`); all others touch entries inside the root alone (`request_touches`).
-/

namespace ChunkedUpload.Directory

open Call (Ends)
open Files (Location Node Path Tree)
open Files.Tree (Leads Edits checkText linksMax start)

variable {t : Tree} {root : Location} {above : Path} {name : String}

/-! ## Where an object is put -/

/-- Writing through `path` would touch what is not below `root`: it leads to an entry in a directory
elsewhere. -/
def LeadsOut (t : Tree) (root : Location) (path : Path) : Prop :=
  ∃ above loc, path.parent? = some above ∧ t.realpath above = .ok loc ∧ ¬root <:+ loc

/-- What a call did to the tree `t`, if it touches something outside just where `out` holds. -/
def Touches (t : Tree) (root : Location) (out : Prop) (s : Directory) : Prop :=
  ∃ places, Edits t places s.tree ∧ ((∃ a ∈ places, ¬root <:+ a) ↔ out)

theorem Touches.nothing {out : Prop} {s : Directory} (htree : s.tree = t) (hout : ¬out) :
    Touches t root out s :=
  ⟨[], htree ▸ .refl t, ⟨fun ⟨_, ha, _⟩ => absurd ha List.not_mem_nil, fun h => absurd h hout⟩⟩

theorem Touches.inside {out : Prop} {s : Directory} {places : List Location}
    (hedits : Edits t places s.tree) (hplaces : ∀ a ∈ places, root <:+ a) (hout : ¬out) :
    Touches t root out s :=
  ⟨places, hedits, ⟨fun ⟨a, ha, haway⟩ => absurd (hplaces a ha) haway, fun h => absurd h hout⟩⟩

/-- Entries of the directory `loc` were touched, among them one that is not the root. -/
theorem Touches.beside {out : Prop} {s : Directory} {loc : Location}
    (h : Beside t loc (name :: loc) s) (hroot : root ≠ name :: loc) (hout : out ↔ ¬root <:+ loc) :
    Touches t root out s := by
  obtain ⟨places, hedits, hone, hplaces⟩ := h
  refine ⟨places, hedits, ?_⟩
  rw [hout]
  constructor
  · rintro ⟨a, ha, haway⟩ hinside
    obtain ⟨other, rfl⟩ := hplaces a ha
    exact haway (hinside.trans (List.suffix_cons other loc))
  · intro haway
    refine ⟨_, hone, fun hsuffix => ?_⟩
    rcases List.suffix_cons_iff.1 hsuffix with heq | hinside
    · exact hroot heq
    · exact haway hinside

/-- The directory above an accepted path, if it is there without the entry, is inside the root. -/
theorem Accepted.not_leadsOut_of_missing {path : Path} (h : Accepted t root path above name)
    (hmissing : ∀ node, t.lstat path ≠ .ok node) : ¬LeadsOut t root path := by
  rintro ⟨above', loc, hparent, hpath, haway⟩
  rw [h.parent] at hparent
  cases hparent
  obtain ⟨depth, found, loc', hnear, hloc, hinside⟩ := h.nearest
  obtain ⟨node, hnode⟩ := Files.Tree.lstat_of_realpath hpath
  obtain ⟨depth', hnear'⟩ := nearest?_above hnear h.parent hmissing
  rcases nearest?_eq_some hnear' with ⟨-, hown⟩ | ⟨⟨error, herror, -⟩, -⟩
  · rw [hown, hpath] at hloc
    cases hloc
    exact haway hinside
  · rw [hnode] at herror
    cases herror

/-- No entry has the name of the next temporary file, whatever it is made for. -/
def FreshTicket (d : Directory) : Prop :=
  ∀ (name : String) (loc : Location), d.tree.node? (Files.TempName.of name d.ticket :: loc) = none

/-- Where all names are short, none is that of a temporary file. -/
theorem freshTicket_of_short {d : Directory} {ticket : Nat}
    (h : ∀ entry ∈ d.tree.entries, (entry.1.headD "").utf8ByteSize < 41) :
    FreshTicket { d with ticket } := by
  intro name loc
  by_contra hsome
  obtain ⟨node, hnode⟩ := Option.ne_none_iff_exists'.1 hsome
  have hshort := h _ (Files.Tree.mem_entries hnode (List.cons_ne_nil _ _))
  rw [List.headD_cons, Files.TempName.utf8ByteSize_of] at hshort
  omega

theorem Accepted.node?_root {path : Path} (h : Accepted t root path above name)
    (hwell : t.WellFormed) : t.node? root = some .dir := by
  obtain ⟨base, hbelow⟩ := h.below
  obtain ⟨k, hleads⟩ := hbelow.leads
  refine hleads.node?_eq_dir hwell ?_
  rw [start]
  split
  · exact Files.Tree.node?_nil t
  · exact hwell.here

theorem Accepted.leadsTo_of_lstat {path : Path} {node : Node}
    (h : Accepted t root path above name) (hstat : t.lstat path = .ok node) :
    checkText above = .ok () ∧ ∃ d, t.LeadsTo above d := by
  obtain ⟨pre, trail, hends⟩ := h.ends
  obtain ⟨pre', name', habove⟩ := h.aboveEnds
  have htext := Files.Tree.checkText_of_lstat hstat
  refine ⟨Files.Tree.checkText_parent hends h.parent htext habove.isEmpty, ?_⟩
  rcases Files.Tree.leads_or_blocked t linksMax (start t.here path) pre with
    ⟨k, d, hpre⟩ | ⟨error, hblocked⟩
  · exact ⟨d, (Files.Tree.leadsTo_parent hends h.parent).2 ⟨k, hpre⟩⟩
  · rw [Files.Tree.lstat_of_blocked hends htext hblocked] at hstat
    cases hstat

/-- An entry's directory is outside just if the path to the entry leads out of the root. -/
theorem leadsOut_iff {path : Path} {d : Location} (root : Location)
    (hparent : path.parent? = some above) (htext : checkText above = .ok ())
    (hleads : t.LeadsTo above d) :
    LeadsOut t root path ↔ ¬root <:+ d := by
  have hpath := Files.Tree.realpath_of_leadsTo htext hleads
  constructor
  · rintro ⟨above', loc, hparent', hloc, haway⟩
    rw [hparent] at hparent'
    cases hparent'
    rw [hpath] at hloc
    cases hloc
    exact haway
  · exact fun haway => ⟨above, d, hparent, hpath, haway⟩

section

variable {d : Directory} {path : Path} {fill : Path → Call Directory Nat}

/-- Where the directory above is there, a write touches entries of it, which may be outside although
the entry leads back into the root. -/
theorem replaceFile_touches_of_leadsTo {loc : Location} (hwell : d.tree.WellFormed)
    (hfresh : d.FreshTicket) (haccepted : Accepted d.tree root path above name)
    (hfill : OnlyFills fill) (htext : checkText above = .ok ())
    (hleads : d.tree.LeadsTo above loc) :
    Ends (replaceFile path fill) d
      (fun _ => Touches d.tree root (LeadsOut d.tree root path ∧
        (d.tree.writeFile (tempOf path d.ticket) []).isOk = true))
      (fun _ => Touches d.tree root (LeadsOut d.tree root path ∧
        (d.tree.writeFile (tempOf path d.ticket) []).isOk = true)) := by
  obtain ⟨pre', name', habove⟩ := haccepted.aboveEnds
  have hparent : ensureParent path d = .ok () d := by
    rw [ensureParent, haccepted.parent]
    dsimp only
    rw [Tree.makeDirAll, Files.Tree.makeDirAllFrom_of_leadsTo _ habove habove.parent? htext hleads]
  have hout := leadsOut_iff root haccepted.parent htext hleads
  have hstay : Ends (ensureParent path) d (fun _ s => s = d) (fun _ _ => False) :=
    Ends.of_ok hparent rfl
  refine Ends.bind (Ends.mono hstay (fun _ _ h => h) fun _ _ h => h.elim) fun _ s hs => ?_
  rw [hs]
  refine ends_write haccepted hfill hleads (hfresh name loc) (fun s' hok hbeside => ?_)
    fun s' hfailed htree => .nothing htree fun hboth => ?_
  · refine .beside hbeside ?_ ((and_iff_left hok).trans hout)
    rintro rfl
    have hnode := haccepted.node?_root hwell
    rw [hfresh] at hnode
    cases hnode
  · rw [hfailed] at hboth
    cases hboth.2

/-- Where the entry is missing, a write stays inside. -/
theorem replaceFile_touches_of_missing {out : Prop} (hwell : d.tree.WellFormed)
    (hfresh : d.FreshTicket) (haccepted : Accepted d.tree root path above name)
    (hfill : OnlyFills fill)
    (hmissing : ∀ node, d.tree.lstat path ≠ .ok node) (hout : ¬out) :
    Ends (replaceFile path fill) d (fun _ => Touches d.tree root out)
      (fun _ => Touches d.tree root out) := by
  obtain ⟨pre', name', habove⟩ := haccepted.aboveEnds
  obtain ⟨base, hbelow⟩ := haccepted.below
  obtain ⟨depth, found, loc, hnear, hloc, hinside⟩ := haccepted.nearest
  obtain ⟨fuel, hnear'⟩ := nearest?_above hnear haccepted.parent hmissing
  have hmade : Made d.tree root above (d.tree.makeDirAll above) :=
    makeDirAllFrom_inside hwell hbelow habove hnear' hloc hinside
  obtain ⟨places, hedits, hplaces⟩ := hmade.inside
  have hparent : Ends (ensureParent path) d
      (fun _ s => s = { d with tree := (d.tree.makeDirAll above).2 } ∧
        (d.tree.makeDirAll above).1 = .ok ())
      (fun _ s => s = { d with tree := (d.tree.makeDirAll above).2 }) := by
    unfold Ends ensureParent
    rw [haccepted.parent]
    dsimp only
    rcases d.tree.makeDirAll above with ⟨_ | _, tree⟩
    · rfl
    · exact ⟨rfl, rfl⟩
  refine Ends.bind (Ends.mono hparent (fun _ _ h => h) fun _ s hs =>
    .inside (hs ▸ hedits) hplaces hout) fun _ s hs => ?_
  obtain ⟨rfl, hok⟩ := hs
  obtain ⟨loc', hleads, hinside', hsame⟩ := hmade.done hok
  have hfresh' : (d.tree.makeDirAll above).2.node? (Files.TempName.of name d.ticket :: loc') =
      none := by
    rcases hsame with hsame | hempty
    · rw [hsame]
      exact hfresh name loc'
    · exact hempty _
  refine ends_write haccepted hfill hleads hfresh' (fun s' _ hbeside => ?_)
    fun s' _ htree => .inside (htree ▸ hedits) hplaces hout
  obtain ⟨more, hmore, -, hall⟩ := hbeside
  refine .inside (hedits.trans hmore) (fun a ha => ?_) hout
  rcases List.mem_append.1 ha with ha | ha
  · obtain ⟨other, rfl⟩ := hall a ha
    exact hinside'.trans (List.suffix_cons other loc')
  · exact hplaces a ha

/-- A write to an accepted path touches something outside the root just if the path leads out of
it and has room for the temporary file. -/
theorem replaceFile_touches (hwell : d.tree.WellFormed) (hfresh : d.FreshTicket)
    (haccepted : Accepted d.tree root path above name)
    (hfill : OnlyFills fill) :
    Ends (replaceFile path fill) d
      (fun _ => Touches d.tree root (LeadsOut d.tree root path ∧
        (d.tree.writeFile (tempOf path d.ticket) []).isOk = true))
      (fun _ => Touches d.tree root (LeadsOut d.tree root path ∧
        (d.tree.writeFile (tempOf path d.ticket) []).isOk = true)) := by
  by_cases hthere : ∃ node, d.tree.lstat path = .ok node
  · obtain ⟨node, hstat⟩ := hthere
    obtain ⟨htext, loc, hleads⟩ := haccepted.leadsTo_of_lstat hstat
    exact replaceFile_touches_of_leadsTo hwell hfresh haccepted hfill htext hleads
  · have hmissing : ∀ node, d.tree.lstat path ≠ .ok node := fun node h => hthere ⟨node, h⟩
    exact replaceFile_touches_of_missing hwell hfresh haccepted hfill hmissing fun hboth =>
      haccepted.not_leadsOut_of_missing hmissing hboth.1

end

/-! ## What a request touches -/

/-- Writing to `path` makes a temporary file outside the root. -/
def WritesOut (d : Directory) (root : Location) (path : Path) : Prop :=
  LeadsOut d.tree root path ∧ (d.tree.writeFile (tempOf path d.ticket) []).isOk = true

/-- The requests that get out of the root: their path passes the check of links, and still the entry
that they replace or remove is in a directory elsewhere. -/
def Escapes (d : Directory) (root : Location) : Request → Prop
  | .create bucket key _ _ => ∃ path, d.objectPath bucket key = .ok path ∧ d.WritesOut root path
  | .createFromReader bucket key _ =>
    ∃ path, d.objectPath bucket key = .ok path ∧ d.WritesOut root path
  | .compose bucket sources destination =>
    checkSourceCount sources.length = .ok () ∧
      (∃ paths, d.objectPaths bucket sources = .ok paths) ∧
        ∃ path, d.objectPath bucket destination = .ok path ∧ d.WritesOut root path
  | .delete bucket key =>
    ∃ path, d.objectPath bucket key = .ok path ∧ LeadsOut d.tree root path ∧
      (d.tree.removeFile path).isOk = true
  | .get _ _ => False

section

variable {d : Directory} {bucket key : String} {fill : Path → Call Directory Nat}

/-- A call that checks the path of an object first, and what the rest of it touches then. -/
theorem ends_checked {α : Type} {next : Path → Call Directory α} (out : Path → Prop)
    (hnext : ∀ path, d.objectPath bucket key = .ok path →
      Ends (next path) d (fun _ => Touches d.tree root (out path))
        (fun _ => Touches d.tree root (out path))) :
    Ends
      (do
        let path ← Call.ofExcept (objectPath (← get) bucket key)
        next path) d
      (fun _ => Touches d.tree root (∃ path, d.objectPath bucket key = .ok path ∧ out path))
      (fun _ => Touches d.tree root (∃ path, d.objectPath bucket key = .ok path ∧ out path)) := by
  have hcheck : Ends (Call.ofExcept (d.objectPath bucket key)) d
      (fun path s => s = d ∧ d.objectPath bucket key = .ok path)
      (fun _ => Touches d.tree root (∃ path, d.objectPath bucket key = .ok path ∧ out path)) := by
    refine Ends.ofExcept (fun path hpath => ⟨rfl, hpath⟩) fun error herror => .nothing rfl ?_
    rintro ⟨path, hpath, -⟩
    rw [herror] at hpath
    cases hpath
  refine Ends.get_bind (Ends.bind hcheck fun path s hchecked => ?_)
  obtain ⟨rfl, hpath⟩ := hchecked
  have hout : (∃ path, s.objectPath bucket key = .ok path ∧ out path) ↔ out path := by
    constructor
    · rintro ⟨other, hother, h⟩
      rw [hpath] at hother
      cases hother
      exact h
    · exact fun h => ⟨path, hpath, h⟩
  rw [propext hout]
  exact hnext path hpath

theorem ends_checked_put (hwell : d.tree.WellFormed) (hfresh : d.FreshTicket)
    (hroot : d.tree.realpath d.root = .ok root)
    (hfill : OnlyFills fill) :
    Ends
      (do
        let path ← Call.ofExcept (objectPath (← get) bucket key)
        let size ← replaceFile path fill
        pure (⟨bucket, key, size⟩ : StoredObject)) d
      (fun _ => Touches d.tree root
        (∃ path, d.objectPath bucket key = .ok path ∧ d.WritesOut root path))
      (fun _ => Touches d.tree root
        (∃ path, d.objectPath bucket key = .ok path ∧ d.WritesOut root path)) := by
  refine ends_checked (d.WritesOut root) fun path hpath => ?_
  obtain ⟨above, name, haccepted⟩ := accepted_of_objectPath hroot hpath
  exact Ends.bind (replaceFile_touches hwell hfresh haccepted hfill) fun _ _ h => Ends.pure h

theorem ends_compose {sources : List String} {destination : String} (hwell : d.tree.WellFormed)
    (hfresh : d.FreshTicket) (hroot : d.tree.realpath d.root = .ok root) :
    Ends (Directory.compose bucket sources destination) d
      (fun _ => Touches d.tree root (d.Escapes root (.compose bucket sources destination)))
      (fun _ => Touches d.tree root (d.Escapes root (.compose bucket sources destination))) := by
  have hcount : Ends (Call.ofExcept (checkSourceCount sources.length)) d
      (fun _ s => s = d ∧ checkSourceCount sources.length = .ok ())
      (fun _ => Touches d.tree root (d.Escapes root (.compose bucket sources destination))) := by
    refine Ends.ofExcept (fun _ hok => ⟨rfl, hok⟩) fun error herror => .nothing rfl ?_
    rintro ⟨hok, -⟩
    rw [herror] at hok
    cases hok
  refine Ends.bind hcount fun _ s ⟨hs, hok⟩ => ?_
  rw [hs]
  have hpaths : Ends (Call.ofExcept (d.objectPaths bucket sources)) d
      (fun paths s => s = d ∧ d.objectPaths bucket sources = .ok paths)
      (fun _ => Touches d.tree root (d.Escapes root (.compose bucket sources destination))) := by
    refine Ends.ofExcept (fun paths hpaths => ⟨rfl, hpaths⟩) fun error herror => .nothing rfl ?_
    rintro ⟨-, ⟨paths, hpaths⟩, -⟩
    rw [herror] at hpaths
    cases hpaths
  refine Ends.get_bind (Ends.bind hpaths fun paths s ⟨hs, hpaths⟩ => ?_)
  rw [hs]
  have hiff : d.Escapes root (.compose bucket sources destination) ↔
      ∃ path, d.objectPath bucket destination = .ok path ∧ d.WritesOut root path :=
    ⟨fun h => h.2.2, fun h => ⟨hok, ⟨paths, hpaths⟩, h⟩⟩
  rw [propext hiff]
  exact ends_checked_put hwell hfresh hroot <| onlyFills_writeAll fun s =>
    Ends.get_bind (Ends.ofExcept (fun _ _ => rfl) fun _ _ => rfl)

/-- What is removed may be outside although it leads back into the root. -/
theorem touches_of_removeFile {out : Prop} {path : Path} {tree : Tree}
    (hwell : d.tree.WellFormed) (haccepted : Accepted d.tree root path above name)
    (hremove : d.tree.removeFile path = .ok tree) (hout : out ↔ LeadsOut d.tree root path) :
    Touches d.tree root out { d with tree } := by
  obtain ⟨pre, trail, hends⟩ := haccepted.ends
  obtain ⟨pre', name', habove⟩ := haccepted.aboveEnds
  obtain ⟨loc, node, hleads, -, hnode, hdir, rfl⟩ :=
    Files.Tree.removeFile_eq_ok hends haccepted.parent hremove
  have htext : checkText above = .ok () := by
    cases htext : checkText path with
    | ok => exact Files.Tree.checkText_parent hends haccepted.parent htext habove.isEmpty
    | error error =>
      rw [Tree.removeFile, Files.Tree.slot_of_bad_text htext] at hremove
      cases hremove
  have hbeside : Beside d.tree loc (name :: loc) { d with tree := d.tree.erase (name :: loc) } :=
    ⟨_, .erase _ _, List.mem_singleton_self _, fun a ha => ⟨_, List.mem_singleton.1 ha⟩⟩
  refine .beside hbeside ?_ (hout.trans (leadsOut_iff root haccepted.parent htext hleads))
  rintro rfl
  rw [haccepted.node?_root hwell] at hnode
  exact hdir (Option.some.inj hnode).symm

theorem ends_delete (hwell : d.tree.WellFormed) (hroot : d.tree.realpath d.root = .ok root) :
    Ends (Directory.delete bucket key) d
      (fun _ => Touches d.tree root (d.Escapes root (.delete bucket key)))
      (fun _ => Touches d.tree root (d.Escapes root (.delete bucket key))) := by
  refine ends_checked (fun path =>
    LeadsOut d.tree root path ∧ (d.tree.removeFile path).isOk = true) fun path hpath => ?_
  obtain ⟨above, name, haccepted⟩ := accepted_of_objectPath hroot hpath
  unfold Ends
  dsimp only
  cases hremove : d.tree.removeFile path with
  | error error =>
    have hnot : ¬(LeadsOut d.tree root path ∧
        (Except.error error : Except IoError Tree).isOk = true) := fun h => Bool.noConfusion h.2
    dsimp only
    by_cases hkind : error.kind = .notFound
    · rw [if_pos hkind]
      exact .nothing rfl hnot
    · rw [if_neg hkind]
      exact .nothing rfl hnot
  | ok tree => exact touches_of_removeFile hwell haccepted hremove (and_iff_left rfl)

/-- A request touches something outside the root just if it is one that gets out. -/
theorem request_touches (hwell : d.tree.WellFormed) (hfresh : d.FreshTicket)
    (hroot : d.tree.realpath d.root = .ok root) (request : Request) :
    Touches d.tree root (d.Escapes root request) (Call.final (request.run d)) := by
  refine Ends.final ?_
  cases request with
  | create bucket key data uncompressed =>
    exact Ends.bind (ends_checked_put hwell hfresh hroot
      (onlyFills_writeAll fun s => Ends.pure rfl)) fun _ _ h => Ends.pure h
  | createFromReader bucket key contents =>
    exact Ends.bind (ends_checked_put hwell hfresh hroot (onlyFills_copy contents))
      fun _ _ h => Ends.pure h
  | compose bucket sources destination =>
    exact Ends.bind (ends_compose hwell hfresh hroot) fun _ _ h => Ends.pure h
  | delete bucket key =>
    exact Ends.bind (ends_delete hwell hroot) fun _ _ h => Ends.pure h
  | get bucket key =>
    have hsame : Touches d.tree root (d.Escapes root (.get bucket key)) d := .nothing rfl id
    have hread : Ends (Directory.read bucket key) d
        (fun _ => Touches d.tree root (d.Escapes root (.get bucket key)))
        (fun _ => Touches d.tree root (d.Escapes root (.get bucket key))) := by
      have hcheck : Ends (Call.ofExcept (d.objectPath bucket key)) d (fun _ s => s = d)
          (fun _ => Touches d.tree root (d.Escapes root (.get bucket key))) :=
        Ends.ofExcept (fun _ _ => rfl) fun _ _ => hsame
      refine Ends.get_bind (Ends.bind hcheck fun path s hs => ?_)
      subst hs
      exact Ends.get_bind (Ends.ofExcept (fun _ _ => hsame) fun _ _ => hsame)
    exact Ends.bind hread fun _ _ h => Ends.pure h

/-- Without a root to resolve, nothing is done. -/
theorem final_of_bad_root {error : IoError} (hroot : d.tree.realpath d.root = .error error)
    (request : Request) : Call.final (request.run d) = d := by
  have hcheck (bucket key : String) : Ends (Call.ofExcept (d.objectPath bucket key)) d
      (fun _ _ => False) (fun _ s => s = d) := by
    refine Ends.ofExcept (fun path hpath => ?_) fun _ _ => rfl
    simp only [objectPath, bind, Except.bind, hroot, Except.mapError] at hpath
    split at hpath
    · cases hpath
    · split at hpath <;> cases hpath
  have hone {α : Type} (bucket key : String) (next : Path → Call Directory α) :
      Ends (do
        let path ← Call.ofExcept (objectPath (← get) bucket key)
        next path) d (fun _ s => s = d) (fun _ s => s = d) :=
    Ends.get_bind (Ends.bind (hcheck bucket key) fun _ _ h => h.elim)
  suffices h : Ends (request.run (σ := Directory)) d (fun _ s => s = d) (fun _ s => s = d) from
    Ends.final h
  cases request with
  | create bucket key data uncompressed =>
    exact Ends.bind (hone bucket key _) fun _ _ h => Ends.pure h
  | createFromReader bucket key contents =>
    exact Ends.bind (hone bucket key _) fun _ _ h => Ends.pure h
  | compose bucket sources destination =>
    have hcompose : Ends (Directory.compose bucket sources destination) d (fun _ s => s = d)
        (fun _ s => s = d) := by
      have hcount : Ends (Call.ofExcept (checkSourceCount sources.length)) d (fun _ s => s = d)
          (fun _ s => s = d) := Ends.ofExcept (fun _ _ => rfl) fun _ _ => rfl
      refine Ends.bind hcount fun _ s hs => ?_
      rw [hs]
      have hpaths : Ends (Call.ofExcept (d.objectPaths bucket sources)) d (fun _ s => s = d)
          (fun _ s => s = d) := Ends.ofExcept (fun _ _ => rfl) fun _ _ => rfl
      refine Ends.get_bind (Ends.bind hpaths fun paths s hs => ?_)
      rw [hs]
      exact hone bucket destination _
    exact Ends.bind hcompose fun _ _ h => Ends.pure h
  | delete bucket key =>
    exact Ends.bind (hone bucket key _) fun _ _ h => Ends.pure h
  | get bucket key =>
    exact Ends.bind (hone bucket key _) fun _ _ h => Ends.pure h

end

/-- Not inside the root. If the root does not resolve, nothing is inside. -/
def Outside (d : Directory) (a : Location) : Prop :=
  ∀ root, d.tree.realpath d.root = .ok root → ¬root <:+ a

/-- **Where writes stay inside the root.** From every well-formed tree, whatever links it has, a
request makes, replaces or removes something outside the root just if it is one that `Escapes`. -/
theorem reaches_outside_iff_escapes (d : Directory) (hwell : d.tree.WellFormed)
    (hfresh : d.FreshTicket) (request : Request) :
    ∃ places, Edits d.tree places (Call.final (request.run d)).tree ∧
      ((∃ a ∈ places, d.Outside a) ↔
        ∃ root, d.tree.realpath d.root = .ok root ∧ d.Escapes root request) := by
  cases hroot : d.tree.realpath d.root with
  | error error =>
    refine ⟨[], ?_, ⟨fun ⟨_, ha, _⟩ => absurd ha List.not_mem_nil, fun ⟨_, h, _⟩ => nomatch h⟩⟩
    rw [final_of_bad_root hroot]
    exact .refl d.tree
  | ok root =>
    obtain ⟨places, hedits, hiff⟩ := request_touches hwell hfresh hroot request
    refine ⟨places, hedits, ?_⟩
    have houtside : ∀ a, d.Outside a ↔ ¬root <:+ a := by
      intro a
      refine ⟨fun h => h root hroot, fun h root' hroot' => ?_⟩
      rw [hroot] at hroot'
      cases hroot'
      exact h
    simp only [houtside, hiff]
    refine ⟨fun h => ⟨root, rfl, h⟩, fun ⟨root', hroot', h⟩ => ?_⟩
    cases hroot'
    exact h

/-- A link out of the bucket leads to a directory with a link back into it. -/
def astray : Directory where
  tree := { entries := [
    (["outside"], .dir), (["x", "outside"], .link ["..", "root", "b", "t"]),
    (["root"], .dir), (["b", "root"], .dir), (["t", "b", "root"], .file [1]),
    (["link", "b", "root"], .link ["..", "..", "outside"])] }
  root := ["root"]

theorem wellFormed_astray : astray.tree.WellFormed :=
  .of_entries rfl (by decide)

theorem freshTicket_astray : astray.FreshTicket := freshTicket_of_short (d := astray) (by decide)

theorem objectPath_astray :
    astray.objectPath "b" "link/x" = .ok ["root", "b", "link", "x"] := by
  have hkey : checkKey "link/x" = .ok () := by decide +kernel
  rw [objectPath, hkey]
  cbv

theorem outside_astray : astray.Outside ["x", "outside"] := by
  intro root hroot
  have hroot' : astray.tree.realpath astray.root = .ok ["root"] := by cbv
  rw [hroot'] at hroot
  cases hroot
  decide

theorem leadsOut_astray : LeadsOut astray.tree ["root"] ["root", "b", "link", "x"] :=
  ⟨["root", "b", "link"], ["outside"], by cbv, by cbv, by decide⟩

theorem writesOut_astray : astray.WritesOut ["root"] ["root", "b", "link", "x"] := by
  refine ⟨leadsOut_astray, ?_⟩
  have htemp : tempOf ["root", "b", "link", "x"] astray.ticket =
      ["root", "b", "link", "x.tmp.00000000-0000-0000-0000-000000000000"] := by
    have hname : Files.TempName.of "x" 0 = "x.tmp.00000000-0000-0000-0000-000000000000" := by cbv
    rw [← hname]
    rfl
  have htext : checkText ["root", "b", "link", "x.tmp.00000000-0000-0000-0000-000000000000"] =
      .ok () :=
    Files.Tree.checkText_eq_ok.2 ⟨by decide +kernel, by decide +kernel, by decide +kernel⟩
  rw [htemp, Tree.writeFile, Tree.locate, htext]
  rfl

/-- Deleting such a link is one of the requests that get out. -/
theorem reaches_outside_iff_escapes_astray :
    astray.tree.WellFormed ∧ astray.FreshTicket ∧
      ∃ places, Edits astray.tree places
          (Call.final ((Request.delete "b" "link/x").run astray)).tree ∧
        ∃ a ∈ places, astray.Outside a := by
  obtain ⟨places, hedits, hiff⟩ := reaches_outside_iff_escapes astray wellFormed_astray
    freshTicket_astray (.delete "b" "link/x")
  have hroot : astray.tree.realpath astray.root = .ok ["root"] := by cbv
  have hremove : (astray.tree.removeFile ["root", "b", "link", "x"]).isOk = true := by cbv
  exact ⟨wellFormed_astray, freshTicket_astray, places, hedits,
    hiff.2 ⟨["root"], hroot, _, objectPath_astray, leadsOut_astray, hremove⟩⟩

/-- The check of links does not keep writes inside the root: here `create` replaces a link outside
of it, and `delete` removes that link. -/
theorem astray_reaches_outside :
    astray.tree.WellFormed ∧ astray.FreshTicket ∧
      (∃ places, Edits astray.tree places
          (Call.final ((Request.create "b" "link/x" [2] true).run astray)).tree ∧
        ∃ a ∈ places, astray.Outside a) ∧
      astray.Outside ["x", "outside"] ∧
      astray.tree.node? ["x", "outside"] = some (.link ["..", "root", "b", "t"]) ∧
      (Call.final ((Request.delete "b" "link/x").run astray)).tree.node? ["x", "outside"] =
        none := by
  have hroot : astray.tree.realpath astray.root = .ok ["root"] := by cbv
  refine ⟨wellFormed_astray, freshTicket_astray, ?_, outside_astray, rfl, ?_⟩
  · obtain ⟨places, hedits, hout⟩ := request_touches wellFormed_astray freshTicket_astray hroot
      (.create "b" "link/x" [2] true)
    obtain ⟨a, ha, haway⟩ := hout.2 ⟨_, objectPath_astray, writesOut_astray⟩
    refine ⟨places, hedits, a, ha, fun root hroot' => ?_⟩
    rw [hroot] at hroot'
    cases hroot'
    exact haway
  · have hremove : astray.tree.removeFile ["root", "b", "link", "x"] =
        .ok (astray.tree.erase ["x", "outside"]) := by cbv
    have hdelete : Directory.delete "b" "link/x" astray =
        .ok () { astray with tree := astray.tree.erase ["x", "outside"] } := by
      rw [delete_eq objectPath_astray, hremove]
    have hrun : (Request.delete "b" "link/x").run astray =
        .ok .deleted { astray with tree := astray.tree.erase ["x", "outside"] } :=
      Call.bind_of_ok hdelete
    rw [hrun]
    rfl

end ChunkedUpload.Directory
