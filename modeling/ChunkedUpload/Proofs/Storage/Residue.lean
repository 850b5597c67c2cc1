import ChunkedUpload.Proofs.Storage.Outcomes
import ChunkedUpload.Proofs.Upload.Leftovers

/-!
# What an upload leaves among files

A file that was not there before an upload and is not in the place of a part is a stray one
(`IsStray`). As long as the calls of the upload end by themselves there is none: what they make
beside the parts are directories. A stream that stalls leaves one, its temporary file with what had
come of the stream, and no sweep goes there, because a sweep only goes to the places of parts
(`tidy`).
-/

namespace ChunkedUpload.Directory

open Call (Ends)
open Files (Location Node Path Tree)
open Files.Path (isBlank)
open Files.Tree (Grows)

/-- The path of one part. -/
def partPath (d : Directory) (bucket destination : String) (number : Nat) : Path :=
  pathOf d.root bucket (Part.name destination number)

/-- There is a file now where none was, and not under the name of a part. -/
structure IsStray (d : Directory) (bucket destination : String) (t : Tree) (a : Location) :
    Prop where
  file : ∃ content, t.node? a = some (.file content)
  new : ∀ content, d.tree.node? a ≠ some (.file content)
  foreign : ∀ number, 1 ≤ number → number ≤ composeLimit →
    (d.partPath bucket destination number).fileName? ≠ a.head?

/-- The temporary names that an upload may come to make are not in use. -/
structure Unused (d : Directory) (bucket destination : String) : Prop where
  tree : ∀ k ≤ composeLimit, ∀ name loc,
    d.tree.node? (Files.TempName.of name (d.ticket + k) :: loc) = none
  paths : ∀ k ≤ composeLimit, ∀ name number, 1 ≤ number → number ≤ composeLimit →
    Files.TempName.of name (d.ticket + k) ∉ d.partPath bucket destination number

/-- After `n` calls, with no stray file and all names still free. -/
structure Clean (d : Directory) (bucket destination : String) (n : Nat) (s : Directory) :
    Prop where
  root : s.root = d.root
  ticket : ∃ k ≤ n, s.ticket = d.ticket + k
  well : s.tree.WellFormed
  free : ∀ k ≤ composeLimit, ∀ name loc,
    s.tree.node? (Files.TempName.of name (d.ticket + k) :: loc) = none
  noStray : ∀ a, ¬d.IsStray bucket destination s.tree a

/-- There is one stray file, the one at `a`, which has a temporary name and holds `rest`. -/
structure Littered (d : Directory) (bucket destination : String) (a : Location) (rest : Bytes)
    (s : Directory) : Prop where
  root : s.root = d.root
  well : s.tree.WellFormed
  name : ∃ name ticket, a.head? = some (Files.TempName.of name ticket)
  file : s.tree.node? a = some (.file rest)
  stray : d.IsStray bucket destination s.tree a
  only : ∀ b, d.IsStray bucket destination s.tree b → b = a

variable {d s s' : Directory} {t t' : Tree} {bucket destination : String} {a : Location}
  {path : Path} {places : List Location} {n number : Nat} {rest : Bytes}

/-! ## Trees that grow and trees that lose a file -/

theorem isStray_of_grows {among : Path → Prop} (hgrows : Grows t among places t')
    (h : d.IsStray bucket destination t' a) :
    a ∈ places ∨ d.IsStray bucket destination t a := by
  by_cases ha : a ∈ places
  · exact .inl ha
  · obtain ⟨content, hfile⟩ := h.file
    refine .inr ⟨⟨content, ?_⟩, h.new, h.foreign⟩
    cases hnode : t.node? a with
    | none =>
      obtain ⟨hdir, -⟩ := hgrows.made ha hnode hfile
      cases hdir
    | some node => rw [← hfile, hgrows.kept ha hnode]

/-- The directories that are made have names of the path. -/
theorem free_of_grows {temp : String} (hgrows : Grows t path.Above places t')
    (hname : isBlank temp = false) (hpath : temp ∉ path)
    (hplaces : ∀ b ∈ places, b.head? ≠ some temp) (hfree : ∀ loc, t.node? (temp :: loc) = none)
    (loc : Location) : t'.node? (temp :: loc) = none := by
  by_contra hsome
  obtain ⟨node, hnode⟩ := Option.ne_none_iff_exists'.1 hsome
  have hplace : temp :: loc ∉ places := fun hmem => hplaces _ hmem rfl
  obtain ⟨-, q, habove, hlast, -⟩ := hgrows.made hplace (hfree loc) hnode
  exact hpath (Files.Path.mem_of_above habove (Files.Path.mem_of_fileName? hlast) hname)

theorem isStray_erase {loc : Location} :
    d.IsStray bucket destination (t.erase loc) a → d.IsStray bucket destination t a := by
  intro h
  obtain ⟨content, hfile⟩ := h.file
  rw [Files.Tree.node?_erase] at hfile
  split at hfile
  · cases hfile
  · exact ⟨⟨content, hfile⟩, h.new, h.foreign⟩

/-! ## Writes -/

namespace Clean

theorem fresh (h : d.Clean bucket destination n s) (hn : n ≤ composeLimit) : s.FreshTicket := by
  intro name loc
  obtain ⟨k, hk, hticket⟩ := h.ticket
  rw [hticket]
  exact h.free k (by omega) name loc

/-- A tree that gained directories above a part, and no files but under the part's name. -/
theorem grows (h : d.Clean bucket destination n s) (hunused : d.Unused bucket destination)
    (hpos : 1 ≤ number) (hle : number ≤ composeLimit) (hnext : s.Advances s')
    (hwell : s'.tree.WellFormed)
    (hgrows : Grows s.tree (d.partPath bucket destination number).Above places s'.tree)
    (hplaces : ∀ a ∈ places, (d.partPath bucket destination number).fileName? = a.head?) :
    d.Clean bucket destination (n + 1) s' := by
  obtain ⟨k, hk, hticket⟩ := h.ticket
  refine ⟨?_, ?_, hwell, fun k hk name loc => ?_, fun a hstray => ?_⟩
  · rcases hnext with hnext | hnext <;> exact hnext.root.trans h.root
  · rcases hnext with hnext | hnext
    · exact ⟨k, by omega, by rw [hnext.ticket, hticket]⟩
    · exact ⟨k + 1, by omega, by rw [hnext.ticket, hticket, Nat.add_assoc]⟩
  · have hpath := hunused.paths k hk name number hpos hle
    refine free_of_grows hgrows (Files.TempName.isName_of _ _).1 hpath ?_ (h.free k hk name) loc
    intro b hb hhead
    apply hpath
    apply Files.Path.mem_of_fileName?
    rw [hplaces b hb, hhead]
  · rcases isStray_of_grows hgrows hstray with hplace | hold
    · exact hstray.foreign number hpos hle (hplaces a hplace)
    · exact h.noStray a hold

/-- A temporary file that is left behind is the one stray file. -/
theorem leftover (h : d.Clean bucket destination n s) (hunused : d.Unused bucket destination)
    (hn : n ≤ composeLimit) (hroot : s'.root = s.root) {name : String} {loc : Location}
    (hleftover : Leftover s.tree (d.partPath bucket destination number)
      (Files.TempName.of name s.ticket) loc rest s'.tree) :
    d.Littered bucket destination (Files.TempName.of name s.ticket :: loc) rest s' := by
  obtain ⟨k, hk, hticket⟩ := h.ticket
  have hlimit : k ≤ composeLimit := by omega
  refine ⟨hroot.trans h.root, hleftover.well, ⟨name, s.ticket, rfl⟩, hleftover.file,
    ⟨⟨rest, hleftover.file⟩, fun content hold => ?_, fun number hpos hle hlast => ?_⟩,
    fun b hstray => ?_⟩
  · rw [hticket, hunused.tree k hlimit] at hold
    cases hold
  · rw [hticket] at hlast
    exact hunused.paths k hlimit name number hpos hle (Files.Path.mem_of_fileName? hlast)
  · rcases isStray_of_grows hleftover.grows hstray with hplace | hold
    · exact List.mem_singleton.1 hplace
    · exact (h.noStray b hold).elim

/-- What is done keeps the directory clean. What is left behind is littered just if the call is
abandoned. -/
theorem write {call : Call Directory StoredObject} {request : Request} {key : String}
    {wanted : Bytes → Prop} (h : d.Clean bucket destination n s)
    (hunused : d.Unused bucket destination) (hn : n ≤ composeLimit) (hpos : 1 ≤ number)
    (hle : number ≤ composeLimit) (hkey : key = Part.name destination number)
    (hpath : request.path s.root = pathOf s.root bucket key)
    (hcall : Ends call s
      (fun object t => s.Advances t ∧ s.Stores bucket key wanted (.stored object) t)
      (s.Halts request)) :
    Ends call s (fun _ t => d.Clean bucket destination (n + 1) t)
      (fun halt t => halt ≠ .abandoned ∧ d.Clean bucket destination (n + 1) t ∨
        halt = .abandoned ∧ request.Stalls ∧
          ∃ a, d.Littered bucket destination a request.received t) := by
  have hown : pathOf s.root bucket key = d.partPath bucket destination number := by
    rw [h.root, hkey, partPath]
  refine hcall.mono ?_ ?_
  · intro object t hgood
    obtain ⟨hnext, bytes, a, -, -, hput⟩ := hgood
    rw [hown] at hput
    refine h.grows hunused hpos hle hnext hput.well hput.grows fun b hb => ?_
    rw [List.mem_singleton.1 hb, hput.name]
  · intro halt t hbad
    rcases hbad with ⟨hhalt, hnext, hundone⟩ | ⟨hhalt, hstalls, hnext, name, loc, -, hleftover⟩
    · have hunchanged := hundone.unchanged
      rw [hpath, hown] at hunchanged
      exact .inl ⟨hhalt, h.grows hunused hpos hle hnext hunchanged.well hunchanged.grows nofun⟩
    · rw [hpath, hown] at hleftover
      exact .inr ⟨hhalt, hstalls, _, h.leftover hunused hn hnext.root hleftover⟩

/-- The same for a call that does not stall. -/
theorem write_settles {call : Call Directory StoredObject} {request : Request}
    (hcall : Ends call s (fun _ t => d.Clean bucket destination (n + 1) t)
      (fun halt t => halt ≠ .abandoned ∧ d.Clean bucket destination (n + 1) t ∨
        halt = .abandoned ∧ request.Stalls ∧
          ∃ a, d.Littered bucket destination a request.received t))
    (hstalls : ¬request.Stalls) :
    Call.Settles call s (d.Clean bucket destination (n + 1)) := by
  refine hcall.mono (fun _ _ h => h) fun halt t h => ?_
  rcases h with hclean | ⟨-, hstall, -⟩
  · exact hclean
  · exact absurd hstall hstalls

end Clean

/-! ## Deletes -/

/-- A delete takes away a file or a link under the name of its path, or does nothing. -/
theorem delete_settles {key : String} {P : Directory → Prop} (hwell : s.tree.WellFormed) (h : P s)
    (herase : ∀ loc node, (pathOf s.root bucket key).fileName? = loc.head? →
      s.tree.node? loc = some node → node ≠ .dir → P { s with tree := s.tree.erase loc }) :
    Call.Settles (Directory.delete bucket key) s P := by
  refine (ends_delete_file hwell).mono ?_ ?_
  · intro _ t hgood
    obtain ⟨-, -, ⟨slot, node, -, hname, hnode, hdir, rfl⟩ | ⟨-, rfl⟩⟩ := hgood
    · exact herase slot.loc node hname hnode hdir
    · exact h
  · intro halt t hbad
    rcases hbad with ⟨hhalt, -, hundone⟩ | ⟨-, hstalls, -⟩
    · rw [hundone.same id]
      exact ⟨hhalt, h⟩
    · exact hstalls.elim

theorem Clean.delete (h : d.Clean bucket destination n s) (key : String) :
    Call.Settles (Directory.delete bucket key) s (d.Clean bucket destination n) := by
  refine delete_settles h.well h fun loc node _ hnode hdir => ?_
  refine ⟨h.root, h.ticket, h.well.erase hnode hdir, fun k hk name loc' => ?_, fun b hstray => ?_⟩
  · rw [Files.Tree.node?_erase]
    split
    · rfl
    · exact h.free k hk name loc'
  · exact h.noStray b (isStray_erase hstray)

/-- The stray file has not the name of a part, so it is not swept. -/
theorem Littered.delete (h : d.Littered bucket destination a rest s) (hpos : 1 ≤ number)
    (hle : number ≤ composeLimit) :
    Call.Settles (Directory.delete bucket (Part.name destination number)) s
      (d.Littered bucket destination a rest) := by
  refine delete_settles h.well h fun loc node hname hnode hdir => ?_
  have hother : a ≠ loc := by
    rintro rfl
    rw [h.root] at hname
    exact h.stray.foreign number hpos hle hname
  have hfile : (s.tree.erase loc).node? a = some (.file rest) := by
    rw [Files.Tree.node?_erase, if_neg fun hboth => hother hboth.2, h.file]
  exact ⟨h.root, h.well.erase hnode hdir, h.name, hfile,
    ⟨⟨rest, hfile⟩, h.stray.new, h.stray.foreign⟩, fun b hstray => h.only b (isStray_erase hstray)⟩

/-- Files take the parts of an upload and leave no stray file, unless a stream stalls. -/
theorem tidy (hunused : d.Unused bucket destination) :
    Tidy Directory bucket destination (d.Clean bucket destination)
      fun rest s => ∃ a, d.Littered bucket destination a rest s where
  create data hn h := by
    refine Clean.write_settles (h.write hunused (Nat.le_of_lt hn) (Nat.succ_pos _) hn rfl rfl
      (ends_create_file h.well (h.fresh (Nat.le_of_lt hn)) data true)) ?_
    exact id
  stream contents hn h := by
    refine (h.write hunused (Nat.le_of_lt hn) (Nat.succ_pos _) hn rfl rfl
      (ends_stream_file h.well (h.fresh (Nat.le_of_lt hn)) contents)).mono (fun _ _ h => h) ?_
    intro halt t hbad
    rcases hbad with hclean | ⟨hhalt, -, hlittered⟩
    · exact .inl hclean
    · exact .inr ⟨hhalt, hlittered⟩
  compose hn h := by
    refine Clean.write_settles (h.write hunused hn (Nat.le_refl 1) (by decide)
      Part.name_one.symm rfl (ends_compose_files h.well (h.fresh hn) ?_)) ?_
    · intro source hsource path hpath name
      obtain ⟨i, hi, rfl⟩ := Part.mem_names.1 hsource
      obtain ⟨root, above, last, -, rfl, -⟩ := exists_accepted hpath
      obtain ⟨k, hk, hticket⟩ := h.ticket
      rw [hticket, h.root]
      exact hunused.paths k (by omega) name (i + 1) (Nat.succ_pos i) (by omega)
    · exact id
  delete _ _ h := h.delete _
  delete_littered hpos hle h := by
    obtain ⟨a, ha⟩ := h
    exact (ha.delete hpos hle).mono fun _ h => ⟨a, h⟩

end ChunkedUpload.Directory
