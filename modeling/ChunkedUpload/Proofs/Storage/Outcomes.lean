import ChunkedUpload.Proofs.Reader.Responsive
import ChunkedUpload.Proofs.Storage.Atomic

/-!
# How requests on files end

A request does what it is for to the one entry that its path names, or it fails and has changed no
file and no link (`all_or_nothing`). The third way to end is that the stream never answers: the
temporary file stays then with what had come of the stream, and nothing else does (`ends_request`).
-/

namespace ChunkedUpload

open Call (Ends)
open Files (Location Node Path Tree)
open Files.Path (isBlank)

/-! ## What is asked for -/

namespace Request

/-- The path that the request is about, below `root`. -/
def path (root : Path) : Request → Path
  | create bucket key _ _ | createFromReader bucket key _ | compose bucket _ key
  | delete bucket key | get bucket key => Directory.pathOf root bucket key

/-- The request puts an object in place. -/
def Writes : Request → Prop
  | create _ _ _ _ | createFromReader _ _ _ | compose _ _ _ => True
  | delete _ _ | get _ _ => False

/-- No name that is looked up for a source is the temporary one of `ticket`. -/
def Avoids (ticket : Nat) : Request → Prop
  | compose bucket sources _ =>
    ∀ source ∈ sources, ∀ name, Files.TempName.of name ticket ∉ bucket :: Path.ofText source
  | _ => True

/-- The stream of the request never answers again at some point. -/
def Stalls : Request → Prop
  | createFromReader _ _ contents => contents.drain.stop = .stalled
  | _ => False

/-- What the stream of the request hands out. -/
def received : Request → Bytes
  | createFromReader _ _ contents => contents.flow
  | _ => []

end Request

namespace Directory

variable {d s : Directory} {root : Location} {bucket key : String} {path : Path}

/-- The file of an object has this content. -/
def Contains (d : Directory) (bucket key : String) (content : Bytes) : Prop :=
  d.tree.readFile (pathOf d.root bucket key) = .ok content

/-- An object with content in `wanted` was put in place. -/
def Stores (d : Directory) (bucket key : String) (wanted : Bytes → Prop) (answer : Answer)
    (s : Directory) : Prop :=
  ∃ bytes a, wanted bytes ∧ answer = .stored ⟨bucket, key, bytes.length⟩ ∧
    Put d.tree (pathOf d.root bucket key) bytes a s.tree

/-- What a request that answers has done. -/
def Done (d : Directory) : Request → Answer → Directory → Prop
  | .create bucket key data _, answer, s => d.Stores bucket key (· = data) answer s
  | .createFromReader bucket key contents, answer, s =>
    d.Stores bucket key (fun bytes => contents.drain.stop = .done ∧ bytes = contents.flow) answer s
  | .compose bucket sources destination, answer, s =>
    d.Stores bucket destination (fun bytes => ∃ contents,
      List.Forall₂ (d.Contains bucket) sources contents ∧ bytes = contents.flatten) answer s
  | .delete bucket key, answer, s =>
    answer = .deleted ∧
      ((∃ slot node, d.tree.slot (pathOf d.root bucket key) = .ok slot ∧
          (pathOf d.root bucket key).fileName? = slot.loc.head? ∧
            d.tree.node? slot.loc = some node ∧ node ≠ .dir ∧
              s = { d with tree := d.tree.erase slot.loc }) ∨
        (∃ error, d.tree.removeFile (pathOf d.root bucket key) = .error error ∧
          error.kind = .notFound) ∧ s = d)
  | .get bucket key, answer, s =>
    s = d ∧ ∃ content, answer = .content content ∧ d.Contains bucket key content

/-- What a request that fails has left: at most a write has made directories. -/
structure Undone (d : Directory) (request : Request) (s : Directory) : Prop where
  unchanged : Unchanged d.tree (request.path d.root) s.tree
  same : ¬request.Writes → s = d

/-! ## Paths that are looked up -/

/-- Whatever names a path goes through, there are entries of them if it leads somewhere. -/
theorem exists_node_of_found {t : Tree} {follow : Bool} {n : Nat} {loc : Location} {p : Path}
    {piece : String} (hname : Path.IsName piece) : ∀ {l : Location} {node : Node},
      t.locateFrom follow n loc p = .ok (.found l node) → piece ∈ p →
        ∃ d, t.node? (piece :: d) ≠ none := by
  induction n, loc, p using Files.Tree.walk_induction with
  | nil n loc => simp
  | blank n loc other rest hblank ih =>
    intro l node h hpiece
    rw [Files.Tree.locateFrom_blank hblank] at h
    have hne : piece ≠ other := by
      rintro rfl
      simp [hname.1] at hblank
    exact ih h (List.mem_of_ne_of_mem hne hpiece)
  | up n loc rest ih =>
    intro l node h hpiece
    rw [Files.Tree.locateFrom_up] at h
    exact ih h (List.mem_of_ne_of_mem hname.2 hpiece)
  | name n loc other rest hother hdown hlink =>
    intro l node h hpiece
    obtain ⟨-, hpasses⟩ := Files.Tree.passes_of_locateFrom hother h
    have hhere : ∀ {found : Node}, t.node? (other :: loc) = some found → piece ∉ rest →
        ∃ d, t.node? (piece :: d) ≠ none := by
      intro found hnode hrest
      obtain rfl : piece = other := (List.mem_cons.1 hpiece).resolve_right hrest
      exact ⟨loc, by simp [hnode]⟩
    by_cases hrest : piece ∈ rest
    · cases hpasses with
      | dir _ hon => exact hdown hon hrest
      | link hn _ _ hon => exact hlink _ _ hn hon (List.mem_append_right _ hrest)
      | file _ hnil | last _ hnil =>
        rw [hnil] at hrest
        cases hrest
    · cases hpasses with
      | dir hnode | file hnode | link _ _ hnode | last hnode => exact hhere hnode hrest

/-- No temporary name of the next ticket is on the way to the root. -/
theorem FreshTicket.not_mem_root (hfresh : d.FreshTicket)
    (hroot : d.tree.realpath d.root = .ok root) (name : String) :
    Files.TempName.of name d.ticket ∉ d.root := by
  intro hmem
  cases hentry : d.tree.entry true d.root with
  | error error =>
    rw [Tree.realpath, hentry] at hroot
    cases hroot
  | ok found =>
    obtain ⟨loc, hnode⟩ := exists_node_of_found (Files.TempName.isName_of name d.ticket)
      (Files.Tree.locateFrom_of_entry hentry) hmem
    exact hnode (hfresh name loc)

/-- A path that passes the checks, with what they have found. -/
theorem exists_accepted (h : d.objectPath bucket key = .ok path) :
    ∃ root above name, d.tree.realpath d.root = .ok root ∧
      path = pathOf d.root bucket key ∧ path = rootBase d.root ++ bucket :: Path.ofText key ∧
        Accepted d.tree root path above name := by
  cases hroot : d.tree.realpath d.root with
  | error error =>
    simp only [objectPath, bind, Except.bind, hroot, Except.mapError] at h
    split at h
    · cases h
    · split at h <;> cases h
  | ok root =>
    obtain ⟨hbucket, hkey, hpath, -⟩ := objectPath_eq_ok hroot h
    obtain ⟨above, name, haccepted⟩ := accepted_of_objectPath hroot h
    exact ⟨root, above, name, rfl, hpath, hpath.trans (pathOf_eq d.root hbucket hkey), haccepted⟩

/-! ## Sources -/

theorem readFile_of_contentOf {t : Tree} {content : Bytes}
    (h : contentOf t key path = .ok content) : t.readFile path = .ok content := by
  unfold contentOf at h
  cases hread : t.readFile path with
  | error error =>
    rw [hread] at h
    cases h
  | ok content' =>
    rw [hread] at h
    cases h
    rfl

/-- A path that passes the checks goes through a temporary name only if bucket or key do. -/
theorem not_mem_of_objectPath {name : String} (hfresh : d.FreshTicket)
    (hpath : d.objectPath bucket key = .ok path)
    (h : Files.TempName.of name d.ticket ∉ bucket :: Path.ofText key) :
    Files.TempName.of name d.ticket ∉ path := by
  obtain ⟨root, above, last, hroot, -, heq, -⟩ := exists_accepted hpath
  obtain ⟨trail, hbase, -⟩ := eq_rootBase d.root
  rw [heq, List.mem_append]
  rintro (hmem | hmem)
  · apply hfresh.not_mem_root hroot name
    rw [hbase]
    exact List.mem_append_left trail hmem
  · exact h hmem

/-- What is read of a source while the temporary file is there is what it held before. -/
theorem contains_of_staging {temp : String} (hwell : d.tree.WellFormed)
    (hstaging : Staging d.tree temp s.tree) (hname : isBlank temp = false) (htemp : temp ∉ path)
    (hpath : d.objectPath bucket key = .ok path) {content : Bytes}
    (h : contentOf s.tree key path = .ok content) : d.Contains bucket key content := by
  obtain ⟨root, above, last, -, hown, -, haccepted⟩ := exists_accepted hpath
  unfold Contains
  rw [← hown]
  exact (hstaging.readFile_iff hwell hname haccepted htemp content).1 (readFile_of_contentOf h)

/-- The sources are joined as they were before the call. -/
theorem contains_of_gather {temp : String} (hwell : d.tree.WellFormed)
    (hstaging : Staging d.tree temp s.tree) (hname : isBlank temp = false)
    {sources : List String} :
    ∀ {paths : List (String × Path)} {bytes : Bytes},
      (∀ source ∈ sources, ∀ path, d.objectPath bucket source = .ok path → temp ∉ path) →
      d.objectPaths bucket sources = .ok paths → gather s.tree paths = .ok bytes →
      ∃ contents, List.Forall₂ (d.Contains bucket) sources contents ∧ bytes = contents.flatten := by
  induction sources with
  | nil =>
    intro paths bytes _ hpaths hgather
    cases hpaths
    cases hgather
    exact ⟨[], .nil, rfl⟩
  | cons source sources ih =>
    intro paths bytes havoids hpaths hgather
    simp only [objectPaths, bind, Except.bind] at hpaths
    split at hpaths
    · cases hpaths
    rename_i path hpath
    split at hpaths
    · cases hpaths
    rename_i paths' hpaths'
    cases hpaths
    simp only [gather, bind, Except.bind] at hgather
    split at hgather
    · cases hgather
    rename_i content hcontent
    split at hgather
    · cases hgather
    rename_i rest hrest
    cases hgather
    have hcontains := contains_of_staging hwell hstaging hname
      (havoids source List.mem_cons_self path hpath) hpath hcontent
    obtain ⟨contents, hcontents, rfl⟩ :=
      ih (fun other hother => havoids other (List.mem_cons_of_mem _ hother)) hpaths' hrest
    exact ⟨content :: contents, .cons hcontains hcontents, rfl⟩

/-! ## How each request ends -/

/-- The root is the same, and at most one temporary name was made. -/
def Advances (d s : Directory) : Prop := d.AtTicket d.ticket s ∨ d.AtTicket (d.ticket + 1) s

theorem Advances.refl (d : Directory) : d.Advances d := .inl ⟨rfl, rfl⟩

/-- How a request ends that does not answer. -/
def Halts (d : Directory) (request : Request) (halt : Halt) (s : Directory) : Prop :=
  halt ≠ .abandoned ∧ d.Advances s ∧ d.Undone request s ∨
    halt = .abandoned ∧ request.Stalls ∧ d.AtTicket (d.ticket + 1) s ∧
      ∃ name loc, (request.path d.root).fileName? = some name ∧
        Leftover d.tree (request.path d.root) (Files.TempName.of name d.ticket) loc
          request.received s.tree

theorem Halts.refused (hwell : d.tree.WellFormed) (request : Request) (error : StorageError) :
    d.Halts request (.failed error) d :=
  .inl ⟨nofun, .refl d, ⟨hwell, .refl _ _ _⟩, fun _ => rfl⟩

section

variable {request : Request} {fill : Path → Call Directory Nat} {wanted : Bytes → Prop}

/-- What all writes do: check the path, then replace the file. -/
theorem ends_checked_replace (hwell : d.tree.WellFormed) (hfresh : d.FreshTicket)
    (hrequest : request.path d.root = pathOf d.root bucket key) (hwrites : request.Writes)
    (hfill : ∀ (temp : Path) (s : Directory) (name : String),
      Staging d.tree (Files.TempName.of name d.ticket) s.tree →
        Fills temp (fill temp) s wanted fun halt content =>
          halt = .abandoned → request.Stalls ∧ content = request.received) :
    Ends
      (do
        let path ← Call.ofExcept (objectPath (← get) bucket key)
        let size ← replaceFile path fill
        pure (⟨bucket, key, size⟩ : StoredObject)) d
      (fun object s => d.Advances s ∧ d.Stores bucket key wanted (.stored object) s)
      (d.Halts request) := by
  refine Ends.get_bind (Ends.ofExcept_bind ?_ fun error _ => .refused hwell request error)
  intro path hpath
  obtain ⟨root, above, name, -, hown, -, haccepted⟩ := exists_accepted hpath
  refine (ends_replaceFile hwell hfresh haccepted fun temp s => hfill temp s name).andThen ?_ ?_
  · intro halt s hbad
    rw [hown, ← hrequest] at hbad haccepted
    rcases hbad with
      ⟨hhalt, hticket, hunchanged⟩ | ⟨hhalt, hticket, loc, content, ⟨hstalls, rfl⟩, hleftover⟩
    · exact .inl ⟨hhalt, hticket, hunchanged, fun h => absurd hwrites h⟩
    · obtain ⟨pre, trail, hends⟩ := haccepted.ends
      exact .inr ⟨hhalt, hstalls, hticket, name, loc, hends.fileName? haccepted.name, hleftover⟩
  · intro size s hgood
    obtain ⟨hticket, bytes, a, hwanted, rfl, hput⟩ := hgood
    exact Ends.pure ⟨.inr hticket, bytes, a, hwanted, rfl, hown ▸ hput⟩

end

theorem ends_create_file (hwell : d.tree.WellFormed) (hfresh : d.FreshTicket) (data : Bytes)
    (uncompressed : Bool) :
    Ends (Directory.create bucket key data uncompressed) d
      (fun object s => d.Advances s ∧
        d.Done (.create bucket key data uncompressed) (.stored object) s)
      (d.Halts (.create bucket key data uncompressed)) :=
  ends_checked_replace hwell hfresh rfl trivial fun _ _ _ _ =>
    fills_writeAll (Ends.pure ⟨rfl, rfl⟩)

theorem ends_stream_file (hwell : d.tree.WellFormed) (hfresh : d.FreshTicket)
    (contents : Reader) :
    Ends (Directory.createFromReader bucket key contents) d
      (fun object s => d.Advances s ∧
        d.Done (.createFromReader bucket key contents) (.stored object) s)
      (d.Halts (.createFromReader bucket key contents)) := by
  refine ends_checked_replace hwell hfresh rfl trivial fun temp s _ _ =>
    (fills_copy contents s).mono ?_ ?_
  · rintro bytes ⟨hending, hbytes⟩
    exact ⟨contents.drain_stop.trans hending, hbytes⟩
  · rintro _ content ⟨hhalt, hcontent⟩ rfl
    exact ⟨contents.drain_stop.trans (haltOf?_eq_abandoned.1 hhalt), hcontent⟩

theorem ends_compose_files {sources : List String} (hwell : d.tree.WellFormed)
    (hfresh : d.FreshTicket) (havoids : ∀ source ∈ sources, ∀ path,
      d.objectPath bucket source = .ok path → ∀ name, Files.TempName.of name d.ticket ∉ path) :
    Ends (Directory.compose bucket sources key) d
      (fun object s => d.Advances s ∧
        d.Done (.compose bucket sources key) (.stored object) s)
      (d.Halts (.compose bucket sources key)) := by
  refine Ends.ofExcept_bind (fun _ _ => ?_) fun error _ => .refused hwell _ error
  refine Ends.get_bind (Ends.ofExcept_bind (fun paths hpaths => ?_)
    fun error _ => .refused hwell _ error)
  have hwrites : (Request.compose bucket sources key).Writes := trivial
  refine ends_checked_replace hwell hfresh rfl hwrites fun temp s name hstaging =>
    fills_writeAll (Ends.get_bind (Ends.ofExcept (fun bytes hgather => ⟨rfl, ?_⟩)
      fun _ _ => ⟨rfl, nofun⟩))
  exact contains_of_gather hwell hstaging (Files.TempName.isName_of name d.ticket).1
    (fun source hsource path hpath => havoids source hsource path hpath name) hpaths hgather

theorem ends_delete_file (hwell : d.tree.WellFormed) :
    Ends (Directory.delete bucket key) d
      (fun _ s => d.Advances s ∧ d.Done (.delete bucket key) .deleted s)
      (d.Halts (.delete bucket key)) := by
  refine Ends.get_bind (Ends.ofExcept_bind (fun path hpath => ?_)
    fun error _ => .refused hwell _ error)
  obtain ⟨root, above, name, -, rfl, -, haccepted⟩ := exists_accepted hpath
  unfold Ends
  dsimp only
  cases hremove : d.tree.removeFile (pathOf d.root bucket key) with
  | ok tree =>
    obtain ⟨pre, trail, hends⟩ := haccepted.ends
    obtain ⟨loc, node, hleads, rfl, hnode, hdir, rfl⟩ :=
      Files.Tree.removeFile_eq_ok hends haccepted.parent hremove
    have htext : Files.Tree.checkText (pathOf d.root bucket key) = .ok () := by
      cases htext : Files.Tree.checkText (pathOf d.root bucket key) with
      | ok => rfl
      | error error =>
        rw [Tree.removeFile, Files.Tree.slot_of_bad_text htext] at hremove
        cases hremove
    have hslot := Files.Tree.slot_of_leadsTo hends haccepted.parent htext hleads
    exact ⟨.inl ⟨rfl, rfl⟩, rfl, .inl ⟨_, node, hslot, hends.fileName? haccepted.name, hnode, hdir,
      rfl⟩⟩
  | error error =>
    dsimp only
    by_cases hkind : error.kind = .notFound
    · rw [if_pos hkind]
      exact ⟨.refl d, rfl, .inr ⟨⟨error, hremove, hkind⟩, rfl⟩⟩
    · rw [if_neg hkind]
      exact .refused hwell _ _

theorem ends_read_file (hwell : d.tree.WellFormed) :
    Ends (Directory.read bucket key) d
      (fun content s => d.Advances s ∧ d.Done (.get bucket key) (.content content) s)
      (d.Halts (.get bucket key)) := by
  refine Ends.get_bind (Ends.ofExcept_bind (fun path hpath => ?_)
    fun error _ => .refused hwell _ error)
  obtain ⟨root, above, name, -, rfl, -, -⟩ := exists_accepted hpath
  refine Ends.get_bind (Ends.ofExcept (fun content hcontent => ?_)
    fun error _ => .refused hwell _ error)
  exact ⟨.refl d, rfl, content, rfl, readFile_of_contentOf hcontent⟩

/-- A request answers and has done what it is for, or it fails and nothing is changed, or it is
abandoned by a stream that never answers and leaves a temporary file with what had come of it. -/
theorem ends_request (hwell : d.tree.WellFormed) (hfresh : d.FreshTicket) {request : Request}
    (havoids : request.Avoids d.ticket) :
    Ends request.run d (fun answer s => d.Advances s ∧ d.Done request answer s)
      (d.Halts request) := by
  cases request with
  | create bucket key data uncompressed =>
    exact Ends.bind (ends_create_file hwell hfresh data uncompressed) fun _ _ h => Ends.pure h
  | createFromReader bucket key contents =>
    exact Ends.bind (ends_stream_file hwell hfresh contents) fun _ _ h => Ends.pure h
  | compose bucket sources destination =>
    refine Ends.bind (ends_compose_files hwell hfresh fun source hsource path hpath name => ?_)
      fun _ _ h => Ends.pure h
    exact not_mem_of_objectPath hfresh hpath (havoids source hsource name)
  | delete bucket key =>
    exact Ends.bind (ends_delete_file hwell) fun _ _ h => Ends.pure h
  | get bucket key =>
    exact Ends.bind (ends_read_file hwell) fun _ _ h => Ends.pure h

/-- **Requests on files are all or nothing.** Whatever files, directories and links there are, a
request whose stream does not stall answers and has done what it is for, to one entry alone; or it
fails and no file and no link is changed, and no directory gone. -/
theorem all_or_nothing (d : Directory) (hwell : d.tree.WellFormed) (hfresh : d.FreshTicket)
    (request : Request) (havoids : request.Avoids d.ticket) (hstalls : ¬request.Stalls) :
    Ends request.run d (d.Done request)
      (fun halt s => (∃ error, halt = .failed error) ∧ d.Undone request s) := by
  refine (ends_request hwell hfresh havoids).mono (fun _ _ h => h.2) fun halt s h => ?_
  rcases h with ⟨hhalt, -, hundone⟩ | ⟨-, hstall, -⟩
  · cases halt with
    | failed error => exact ⟨⟨error, rfl⟩, hundone⟩
    | abandoned => exact absurd rfl hhalt
  · exact absurd hstall hstalls

theorem all_or_nothing_astray :
    astray.tree.WellFormed ∧ astray.FreshTicket ∧
      (Request.compose "b" ["t", "t"] "t").Avoids astray.ticket ∧
      ¬(Request.compose "b" ["t", "t"] "t").Stalls ∧
      Ends (Request.compose "b" ["t", "t"] "t").run astray
        (astray.Done (.compose "b" ["t", "t"] "t"))
        (fun halt s => (∃ error, halt = .failed error) ∧
          astray.Undone (.compose "b" ["t", "t"] "t") s) := by
  have havoids : (Request.compose "b" ["t", "t"] "t").Avoids astray.ticket := by
    intro source hsource name hmem
    have hshort : ∀ source ∈ ["t", "t"], ∀ piece ∈ "b" :: Path.ofText source,
        piece.utf8ByteSize < 41 := by decide +kernel
    have hlong := Files.TempName.utf8ByteSize_of name astray.ticket
    have := hshort source hsource _ hmem
    omega
  exact ⟨wellFormed_astray, freshTicket_astray, havoids, id,
    all_or_nothing astray wellFormed_astray freshTicket_astray _ havoids id⟩

end Directory

end ChunkedUpload
