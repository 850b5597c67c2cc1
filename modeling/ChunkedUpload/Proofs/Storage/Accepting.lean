import ChunkedUpload.Proofs.Files.Growth
import ChunkedUpload.Proofs.Storage.Containment
import ChunkedUpload.Proofs.Storage.DirectoryKeeper

/-!
# Uploads to an open store in files

`Accepting` is what is asked of an open store for an upload under a key: the key is accepted, there
are no links below the root, and nothing stands where the parts go but files. Then there is a `Site`
for the parts, and the upload with its sweep changes one file: `Accepting.upload` if the keys of all
parts are valid, `Accepting.upload_dotted` if a dot at the end of the key makes those of the later
parts invalid. `Stored` says what has become of the tree.
-/

namespace ChunkedUpload

open Files (Location Node Path Tree under)

/-- In `t'` the file `target` holds `content`, nothing is at the locations of `gone`, and all else
is as in `t` but for directories that were made. -/
structure Files.Tree.Stored (t : Tree) (target : Location) (content : Bytes)
    (gone : Location → Prop) (t' : Tree) : Prop where
  file : t'.node? target = some (.file content)
  cleared : ∀ a, gone a → t'.node? a = none
  others : ∀ a, a ≠ target → ¬gone a →
    t'.node? a = t.node? a ∨ t.node? a = none ∧ t'.node? a = some .dir

theorem Files.Tree.Grows.stored {t t' t'' : Tree} {among : Path → Prop} {target : Location}
    {content : Bytes} {gone : Location → Prop} (hgrown : t.Grows among [] t')
    (h : t'.Stored target content gone t'') : t.Stored target content gone t'' where
  file := h.file
  cleared := h.cleared
  others := by
    intro a htarget hgone
    cases hnode : t.node? a with
    | some node =>
      have hkept := hgrown.keeps a node hnode
      rcases h.others a htarget hgone with hsame | ⟨hnone, -⟩
      · exact .inl (hsame.trans hkept)
      · rw [hkept] at hnone
        cases hnone
    | none =>
      rcases h.others a htarget hgone with hsame | ⟨-, hdir⟩
      · cases hnode' : t'.node? a with
        | none => exact .inl (hsame.trans hnode')
        | some node =>
          obtain ⟨rfl, -⟩ := hgrown.made List.not_mem_nil hnode hnode'
          exact .inr ⟨rfl, hsame.trans hnode'⟩
      · exact .inr ⟨rfl, hdir⟩

namespace Directory

open Files.Tree (checkText nameMax pathMax)

/-- Where the parts from the second one to the one with the number `count` are. -/
def LaterPart (loc : Location) (bucket key : String) (count : Nat) (a : Location) : Prop :=
  ∃ number, 2 ≤ number ∧ number ≤ count ∧ a = under loc (placeOf (bucket, Part.name key number))

/-- The first part is no later one. -/
theorem laterPart_max_one (loc : Location) (bucket key : String) (count : Nat) :
    LaterPart loc bucket key (max 1 count) = LaterPart loc bucket key count := by
  funext a
  refine propext (exists_congr fun number => ?_)
  constructor
  · rintro ⟨htwo, hcount, heq⟩
    exact ⟨htwo, by omega, heq⟩
  · rintro ⟨htwo, hcount, heq⟩
    exact ⟨htwo, by omega, heq⟩

/-- An open store takes an object: its path is accepted, its key is made of names, and its parts and
their temporary files have room for their names. No link is below the root, no file above the
object, and no directory in the place of a part. -/
structure Accepting (d : Directory) (loc : Location) (bucket key : String) : Prop where
  root : d.tree.realpath d.root = .ok loc
  accepted : ∃ path, d.objectPath bucket key = .ok path
  unlinked : ∀ a target, loc <:+ a → d.tree.node? a ≠ some (.link target)
  named : ∀ piece ∈ Path.ofText key, piece ≠ "" ∧ piece ≠ "."
  fits : ∀ piece ∈ placeOf (bucket, key), piece.utf8ByteSize ≤ nameMax
  room : ∀ last ∈ (Path.ofText key).getLast?, last.utf8ByteSize ≤ 206
  short : (pathOf d.root bucket key).width + 49 < pathMax
  above : ∀ q content, q <+: placeOf (bucket, key) → q ≠ placeOf (bucket, key) →
    d.tree.node? (under loc q) ≠ some (.file content)
  parts : ∀ number, 1 ≤ number → number ≤ composeLimit →
    d.tree.node? (under loc (placeOf (bucket, Part.name key number))) ≠ some .dir
  fresh : ∀ k ≤ composeLimit, FreshTicket { d with ticket := d.ticket + k }

variable {d s : Directory} {loc : Location} {bucket key last : String} {q : Path} {writes : Nat}
  {shelf before : Shelf}

/-- In a tree whose entries have short names and are no links, this can be read off the nodes at a
few locations. -/
theorem Accepting.of_entries (hroot : d.tree.realpath d.root = .ok loc)
    (haccepted : ∃ path, d.objectPath bucket key = .ok path)
    (hlinks : ∀ entry ∈ d.tree.entries, ∀ target, entry.2 ≠ .link target)
    (hnames : ∀ entry ∈ d.tree.entries, (entry.1.headD "").utf8ByteSize < 41)
    (hpieces : ∀ piece ∈ Path.ofText key, piece ≠ "" ∧ piece ≠ ".")
    (hfits : ∀ piece ∈ placeOf (bucket, key), piece.utf8ByteSize ≤ 206)
    (hshort : (pathOf d.root bucket key).width + 49 < pathMax)
    (habove : ∀ q ∈ (placeOf (bucket, key)).inits, q ≠ placeOf (bucket, key) →
      d.tree.node? (under loc q) = none ∨ d.tree.node? (under loc q) = some .dir)
    (hparts : ∀ number ≤ composeLimit,
      d.tree.node? (under loc (placeOf (bucket, Part.name key number))) ≠ some .dir) :
    Accepting d loc bucket key where
  root := hroot
  accepted := haccepted
  unlinked := by
    intro a target _ hnode
    by_cases htop : a = []
    · rw [htop, Files.Tree.node?_nil] at hnode
      cases hnode
    · exact hlinks _ (Files.Tree.mem_entries hnode htop) target rfl
  named := hpieces
  fits piece hpiece := Nat.le_trans (hfits piece hpiece) (by decide)
  room last hlast := hfits last (List.mem_cons_of_mem _ (List.mem_of_getLast? hlast))
  short := hshort
  above := by
    intro q content hpre hne hnode
    rcases habove q ((List.mem_inits _ _).2 hpre) hne with hnone | hdir
    · rw [hnone] at hnode
      cases hnode
    · rw [hdir] at hnode
      cases hnode
  parts number _ hlimit := hparts number hlimit
  fresh _ _ := freshTicket_of_short hnames

/-! ## The site -/

theorem checkText_of_nearest? {t : Tree} {p : Path} {depth : Nat} {found? : Option (Path × Node)}
    (hsome : p.isEmpty = false) (h : nearest? t depth p = .ok found?) : checkText p = .ok () := by
  cases htext : checkText p with
  | ok => rfl
  | error error =>
    have hstat : t.lstat p = .error error := by
      rw [Files.Tree.lstat, Files.Tree.entry_of_bad_text htext]
      rfl
    unfold nearest? at h
    rw [hstat] at h
    simp only [Files.Tree.kind_of_bad_text hsome htext, ↓reduceIte] at h
    cases h

theorem checkText_of_realpath {t : Tree} {p : Path} (h : t.realpath p = .ok loc) :
    checkText p = .ok () := by
  cases htext : checkText p with
  | ok => rfl
  | error error =>
    rw [Files.Tree.realpath, Files.Tree.entry_of_bad_text htext] at h
    cases h

/-- An accepted path goes on below a root that is a directory, and its text is one that operations
take. -/
theorem leadsTo_of_objectPath {path : Path} (hroot : d.tree.realpath d.root = .ok loc)
    (h : d.objectPath bucket key = .ok path) : d.tree.LeadsTo d.root loc ∧
      checkText (rootBase d.root ++ placeOf (bucket, key)) = .ok () := by
  obtain ⟨hbucket, hkey, rfl, found?, hnear, -⟩ := objectPath_eq_ok hroot h
  rw [pathOf_eq d.root hbucket hkey] at hnear
  obtain ⟨hne, hbase⟩ := leads_rootBase hroot (List.cons_ne_nil bucket (Path.ofText key))
  have hsome : Path.isEmpty (rootBase d.root ++ bucket :: Path.ofText key) = false := by
    have hlen := List.length_pos_iff.2 hne
    rw [Path.isEmpty, Bool.and_eq_false_iff, decide_eq_false_iff_not, List.length_append,
      List.length_cons]
    exact .inr (by omega)
  refine ⟨?_, checkText_of_nearest? hsome hnear⟩
  rcases hbase with ⟨k, hleads⟩ | hblocked
  · obtain ⟨trail, heq, hblank, -⟩ := eq_rootBase d.root
    rw [(start_rootBase (isEmpty_of_realpath hroot) (List.cons_ne_nil _ _) _).2] at hleads
    have hwhole := hleads.append (Files.Tree.Leads.blanks hblank)
    rw [← heq] at hwhole
    exact ⟨k, hwhole⟩
  · exact absurd hnear (nearest?_of_blocked hblocked (List.cons_ne_nil _ _) hsome)

/-- The root of such a store is a directory. -/
theorem Accepting.isDir (h : Accepting d loc bucket key) : d.tree.isDir d.root = true := by
  obtain ⟨path, hpath⟩ := h.accepted
  exact Files.Tree.isDir_iff.2 ⟨checkText_of_realpath h.root, loc,
    (leadsTo_of_objectPath h.root hpath).1⟩

/-- What stands in the place of a part is a file. -/
theorem Accepting.node?_part (h : Accepting d loc bucket key) {number : Nat} (hone : 1 ≤ number)
    (hlimit : number ≤ composeLimit) {node : Node}
    (hnode : d.tree.node? (under loc (placeOf (bucket, Part.name key number))) = some node) :
    ∃ old, node = .file old := by
  cases node with
  | dir => exact absurd hnode (h.parts number hone hlimit)
  | file old => exact ⟨old, rfl⟩
  | link target => exact absurd hnode (h.unlinked _ target (Files.suffix_under loc _))

/-- There is a site for the parts of an object. -/
theorem Accepting.site (h : Accepting d loc bucket key) (hwell : d.tree.WellFormed) :
    checkKey key = .ok () ∧ ∃ q last, Site d loc bucket key q last := by
  obtain ⟨path, hpath⟩ := h.accepted
  obtain ⟨hbucket, hkey, -⟩ := objectPath_eq_ok h.root hpath
  obtain ⟨hleads, htext⟩ := leadsTo_of_objectPath h.root hpath
  have hrooted := rooted_of_leadsTo hwell (checkText_of_realpath h.root) hleads
  obtain ⟨-, hname⟩ := ofText_of_checkBucket hbucket
  obtain ⟨first, more, hpieces, -, hups⟩ := ofText_of_checkKey hkey
  obtain ⟨q, last, hplace, hlast⟩ : ∃ q last, placeOf (bucket, key) = bucket :: q ++ [last] ∧
      Path.ofText key = q ++ [last] := exists_placeOf (bucket, key)
  have hne : bucket :: q ≠ [] := List.cons_ne_nil bucket q
  have hshort := h.short
  have hroom := h.room last (by rw [hlast]; simp)
  rw [pathOf_eq d.root hbucket hkey,
    show bucket :: Path.ofText key = placeOf (bucket, key) from rfl,
    hplace] at hshort
  refine ⟨hkey, bucket :: q, last, hrooted, checkText_of_realpath h.root, hbucket, hplace, hne, ?_,
    ?_, hplace ▸ (Files.Tree.checkText_eq_ok.1 htext).1, hshort, ?_, ?_, ?_⟩
  · rw [← hplace]
    intro piece hpiece
    refine ⟨?_, h.fits piece hpiece⟩
    rcases List.mem_cons.1 hpiece with rfl | hpiece
    · exact hname
    · obtain ⟨hempty, hdot⟩ := h.named piece hpiece
      exact .of_ne hempty hdot (hups piece (hpieces ▸ hpiece))
  · have hmax : nameMax = 255 := rfl
    omega
  · intro pre hpre
    cases hnode : d.tree.node? (under loc pre) with
    | none => exact .inl rfl
    | some node =>
      cases node with
      | dir => exact .inr rfl
      | link target => exact absurd hnode (h.unlinked _ target (Files.suffix_under loc pre))
      | file content =>
        have hbefore : pre <+: placeOf (bucket, key) := by
          rw [hplace]
          exact hpre.trans (List.prefix_append _ _)
        refine absurd hnode (h.above pre content hbefore fun heq => ?_)
        rw [heq, hplace] at hpre
        have hlen := hpre.length_le
        rw [List.length_append, List.length_singleton] at hlen
        omega
  · intro index hindex node hnode
    refine h.node?_part (Nat.succ_pos index) (show index + 1 ≤ composeLimit from hindex) ?_
    rwa [placeOf_name hplace hne, Files.under_concat]
  · exact fun k hk name => h.fresh k hk name _

/-- What the files of the parts hold. -/
def shelfOf (t : Tree) (dir : Location) (last : String) : Shelf := fun index =>
  match t.node? (Part.name last (index + 1) :: dir) with
  | some (.file content) => some content
  | _ => none

theorem Site.shelved (h : Site d loc bucket key q last) :
    Shelved d loc q last 0 (shelfOf d.tree (under loc q) last) d where
  root := rfl
  ticket := rfl
  here := rfl
  well := h.rooted.well
  above _ _ := .inl rfl
  parts := by
    intro index hindex
    rw [shelfOf]
    cases hnode : d.tree.node? (Part.name last (index + 1) :: under loc q) with
    | none => rfl
    | some node =>
      obtain ⟨old, rfl⟩ := h.files index hindex node hnode
      rfl
  others _ _ _ := rfl

/-! ## What is stored -/

/-- The file of the first part is the object. -/
theorem Shelved.readFile {content : Bytes} (h : Shelved d loc q last writes shelf s)
    (hsite : Site d loc bucket key q last) (hcontent : shelf 0 = some content) :
    s.tree.readFile (rootBase d.root ++ placeOf (bucket, key)) = .ok content := by
  have hlimit : 0 < composeLimit := by decide
  have hwritable := h.writable hsite hlimit
  have hnode := h.parts 0 hlimit
  rw [hcontent, ← Files.under_concat] at hnode
  rw [hsite.place]
  exact (h.rooted hsite).readFile hwritable.plain (by simp) (h.openTo hsite _) hnode hwritable.text

theorem Shelved.stored {content : Bytes} {count : Nat} (h : Shelved d loc q last writes shelf s)
    (hsite : Site d loc bucket key q last) (hbefore : Shelved d loc q last 0 before d)
    (hcontent : shelf 0 = some content) (hlater : ∀ i, 1 ≤ i → i < count → shelf i = none)
    (hothers : ∀ i, 1 ≤ i → count ≤ i → shelf i = before i) :
    d.tree.Stored (under loc (placeOf (bucket, key))) content
      (LaterPart loc bucket key (min composeLimit count)) s.tree := by
  have hplace : ∀ number, under loc (placeOf (bucket, Part.name key number)) =
      Part.name last number :: under loc q := fun number => by
    rw [placeOf_name hsite.place hsite.nonempty, Files.under_concat]
  have hfirst : under loc (placeOf (bucket, key)) = Part.name last (0 + 1) :: under loc q :=
    hplace 1
  refine ⟨?_, ?_, fun a htarget hgone => ?_⟩
  · rw [hfirst, h.parts 0 (by decide), hcontent]
    rfl
  · rintro a ⟨number, htwo, hcount, rfl⟩
    obtain ⟨index, rfl⟩ : ∃ index, number = index + 1 := ⟨number - 1, by omega⟩
    rw [hplace, h.parts index (by omega), hlater index (by omega) (by omega)]
    rfl
  · by_cases habove : ∃ pre, pre <+: q ∧ a = under loc pre
    · obtain ⟨pre, hpre, rfl⟩ := habove
      rcases h.above pre hpre with hsame | hdir
      · exact .inl hsame
      · rcases hsite.clear pre hpre with hnone | hdir'
        · exact .inr ⟨hnone, hdir⟩
        · exact .inl (hdir.trans hdir'.symm)
    · refine .inl ?_
      by_cases hpart : ∃ index < composeLimit, a = Part.name last (index + 1) :: under loc q
      · obtain ⟨index, hindex, rfl⟩ := hpart
        have hone : 1 ≤ index :=
          Nat.one_le_iff_ne_zero.2 fun hzero => htarget (by rw [hfirst, hzero])
        have hcount : count ≤ index := by
          by_contra hlt
          exact hgone ⟨index + 1, by omega, by omega, (hplace _).symm⟩
        rw [h.parts index hindex, hothers index hone hcount, hbefore.parts index hindex]
      · exact h.others a (fun pre hpre heq => habove ⟨pre, hpre, heq⟩)
          fun index hindex heq => hpart ⟨index, hindex, heq⟩

/-! ## Uploads -/

section
variable {script : Reader.Script}

/-- The keys of the parts of a stream are valid: no key of a later part is needed, or there is no
dot at the end of the key. -/
theorem checkKey_parts {count : Nat} (hkey : checkKey key = .ok ())
    (hdot : key.toList.getLast? = some '.' → count ≤ 1) :
    ∀ index < count, checkKey (Part.name key (index + 1)) = .ok () := by
  intro index hindex
  refine checkKey_name hkey ?_
  by_cases hlast : key.toList.getLast? = some '.'
  · have hone := hdot hlast
    exact .inl (by omega)
  · exact .inr hlast

/-- An upload whose parts have valid keys replaces the object and clears the places of its later
parts; nothing else is left. -/
theorem Accepting.upload (h : Accepting d loc bucket key) (hwell : d.tree.WellFormed) (u : Uploader)
    (hsize : 0 < u.chunkSize) (hqueue : u.queue.waiting = []) (hsteady : script.Steady)
    (hdot : key.toList.getLast? = some '.' → script.content.length ≤ u.chunkSize)
    (metrics : Metrics) :
    ∃ (u' : Uploader) (m' : Metered Directory),
      u.upload ⟨bucket, key, script⟩ ⟨d, metrics⟩ =
        (.stored ⟨bucket, key, script.content.length⟩, u', m') ∧
      u'.chunkSize = u.chunkSize ∧
      u'.limitHits = u.limitHits + limitCount u.chunkSize script.content.length ∧
      d.tree.Stored (under loc (placeOf (bucket, key))) script.content
        (LaterPart loc bucket key (partCount u.chunkSize script.content.length))
        (u'.flush m').2.store.tree ∧
      (u'.flush m').2.store.tree.readFile (pathOf d.root bucket key) = .ok script.content := by
  obtain ⟨hkey, q, last, hsite⟩ := h.site hwell
  have hbefore := hsite.shelved
  have hfew : partCount u.chunkSize script.content.length ≤ composeLimit := partCount_le_limit hsize
  have hkeys : ∀ index < partCount u.chunkSize script.content.length,
      checkKey (Part.name key (index + 1)) = .ok () := checkKey_parts hkey fun hlast =>
    Nat.le_of_eq (partCount_of_short hsize (hdot hlast))
  obtain ⟨u', m', writes, swept, hupload, hchunk, hhits, hstore, hfirst, hlater, hothers⟩ :=
    (hsite.keeper hfew hkeys).upload u hsize hsteady (Nat.le_refl _) hqueue
      (m := ⟨d, metrics⟩) hbefore
  refine ⟨u', m', hupload, hchunk, hhits, ?_, ?_⟩
  · have hstored := hstore.stored hsite hbefore hfirst hlater fun i _ hi => hothers i hi
    rwa [Nat.min_eq_right hfew] at hstored
  · rw [pathOf_eq d.root hsite.valid hkey]
    exact hstore.readFile hsite hfirst

/-- If the second part is needed and a dot at the end of the key makes its key invalid, the upload
fails there. The first part has then replaced the object. -/
theorem Accepting.upload_dotted (h : Accepting d loc bucket key) (hwell : d.tree.WellFormed)
    (u : Uploader) (hsize : 0 < u.chunkSize) (hqueue : u.queue.waiting = [])
    (hsteady : script.Steady)
    (hdot : key.toList.getLast? = some '.') (hlong : u.chunkSize < script.content.length)
    (metrics : Metrics) :
    ∃ (u' : Uploader) (m' : Metered Directory),
      u.upload ⟨bucket, key, script⟩ ⟨d, metrics⟩ = (.failed ⟨key,
        .invalidKey ("path traversal not allowed: " ++ Part.name key 2)⟩, u', m') ∧
      d.tree.Stored (under loc (placeOf (bucket, key))) (script.content.take u.chunkSize)
        (fun _ => False) (u'.flush m').2.store.tree := by
  obtain ⟨hkey, q, last, hsite⟩ := h.site hwell
  have hbefore := hsite.shelved
  have hkeys : ∀ index < 1, checkKey (Part.name key (index + 1)) = .ok () :=
    checkKey_parts hkey fun _ => Nat.le_refl 1
  have hrefused := checkKey_name_dotted hkey (show 2 ≠ 1 by decide) hdot
  obtain ⟨u', m', hupload, hstore⟩ := (hsite.keeper (by decide) hkeys).upload_refused
    (fun data _ => create_refused hsite.valid hrefused data true)
    (fun _ => delete_refused hsite.valid hrefused) u hsize hsteady hlong hqueue
    (m := ⟨d, metrics⟩) hbefore
  refine ⟨u', m', hupload, ?_⟩
  have hstored := hstore.stored hsite hbefore (if_pos rfl)
    (fun i _ (hi : i < 0) => absurd hi (Nat.not_lt_zero i)) fun i hi _ => if_neg (Nat.ne_of_gt hi)
  refine ⟨hstored.file, nofun, fun a htarget _ => hstored.others a htarget ?_⟩
  rintro ⟨number, htwo, hzero, -⟩
  omega

end

end Directory

end ChunkedUpload
