import ChunkedUpload.Proofs.Storage.PartPlaces
import ChunkedUpload.Proofs.Storage.Writing
import ChunkedUpload.Proofs.Upload.Keepers

/-!
# A store in files keeps parts

At a `Site` the parts of one object and their temporary files find room in one directory, which may
have to be made. `Shelved` says what there is after some writes: the files of the parts are those of
a shelf, and everything else is as it was, but for the directories on the way. Each call for a part
leads from one such state to the next, so the store is a `Keeper` of these parts (`Site.keeper`).
-/

namespace ChunkedUpload.Directory

open Files (Location Node Path Tree under)
open Files.Tree (Around Open Paved Rooted checkText nameMax pathMax)
open Call (Ends)

/-- There is room in the directory `q` for the files of all parts, and for temporary files beside
them: no link and no file stands above, no directory and no link in their places. -/
structure Site (d : Directory) (loc : Location) (bucket key : String) (q : Path) (last : String) :
    Prop where
  rooted : d.tree.Rooted (rootBase d.root) loc
  text : checkText d.root = .ok ()
  valid : checkBucket bucket = .ok ()
  place : placeOf (bucket, key) = q ++ [last]
  nonempty : q ≠ []
  plain : Path.Plain (q ++ [last])
  room : last.utf8ByteSize + 49 ≤ nameMax
  noNul : ∀ piece ∈ rootBase d.root ++ (q ++ [last]), '\x00' ∉ piece.toList
  short : Path.width (rootBase d.root ++ (q ++ [last])) + 49 < pathMax
  clear : ∀ pre, pre <+: q →
    d.tree.node? (under loc pre) = none ∨ d.tree.node? (under loc pre) = some .dir
  files : ∀ index < composeLimit, ∀ node,
    d.tree.node? (Part.name last (index + 1) :: under loc q) = some node → ∃ old, node = .file old
  fresh : ∀ k ≤ composeLimit, ∀ name,
    d.tree.node? (Files.TempName.of name (d.ticket + k) :: under loc q) = none

/-- The parts are those of `shelf` after `writes` writes, and all else is as before but for
directories on the way. -/
structure Shelved (d : Directory) (loc : Location) (q : Path) (last : String) (writes : Nat)
    (shelf : Shelf) (s : Directory) : Prop where
  root : s.root = d.root
  ticket : s.ticket = d.ticket + writes
  here : s.tree.here = d.tree.here
  well : s.tree.WellFormed
  above : ∀ pre, pre <+: q →
    s.tree.node? (under loc pre) = d.tree.node? (under loc pre) ∨
      s.tree.node? (under loc pre) = some .dir
  parts : ∀ index < composeLimit,
    s.tree.node? (Part.name last (index + 1) :: under loc q) = (shelf index).map .file
  others : ∀ a, (∀ pre, pre <+: q → a ≠ under loc pre) →
    (∀ index < composeLimit, a ≠ Part.name last (index + 1) :: under loc q) →
    s.tree.node? a = d.tree.node? a

variable {d s : Directory} {loc : Location} {bucket key last : String} {q : Path} {writes : Nat}
  {shelf : Shelf} {t : Tree} {index : Nat}

theorem isName_name (h : Path.IsName last) (number : Nat) :
    Path.IsName (Part.name last number) := by
  by_cases hnumber : number = 1
  · rwa [hnumber]
  · have hletter : 'c' ∈ (Part.name last number).toList := by
      rw [Part.toList_name_dot hnumber]
      simp
    have hne : ∀ text : String, 'c' ∉ text.toList → Part.name last number ≠ text := by
      rintro text hno rfl
      exact hno hletter
    exact .of_ne (hne "" (by decide)) (hne "." (by decide)) (hne ".." (by decide))

theorem name_inj_of_lt {other : Nat} (hindex : index < composeLimit)
    (hother : other < composeLimit) :
    Part.name last (index + 1) = Part.name last (other + 1) ↔ index = other := by
  have hmax : composeLimit ≤ Part.maxNumber := by decide
  rw [Part.name_inj (Nat.succ_pos _) (Nat.succ_pos _) (by omega) (by omega)]
  omega

/-- A temporary name is longer than those of all parts. -/
theorem name_ne_temp (hindex : index < composeLimit) (number ticket : Nat) :
    Part.name last (index + 1) ≠ Files.TempName.of (Part.name last number) ticket := by
  intro heq
  have hshort : (Part.name last (index + 1)).utf8ByteSize ≤ last.utf8ByteSize + 8 :=
    Part.utf8ByteSize_name_le hindex
  have hlong := Part.utf8ByteSize_le_name last number
  rw [heq, Files.TempName.utf8ByteSize_of] at hshort
  omega

namespace Site

/-! ## Names and paths -/

theorem plain_of {name : String} (h : Site d loc bucket key q last) (hname : Path.IsName name)
    (hsize : name.utf8ByteSize ≤ last.utf8ByteSize + 49) : Path.Plain (q ++ [name]) := by
  intro piece hpiece
  rcases List.mem_append.1 hpiece with hpiece | hpiece
  · exact h.plain piece (List.mem_append_left _ hpiece)
  · rw [List.mem_singleton.1 hpiece]
    exact ⟨hname, Nat.le_trans hsize h.room⟩

theorem checkText_of {name : String} (h : Site d loc bucket key q last)
    (hname : Path.IsName name) (hsize : name.utf8ByteSize ≤ last.utf8ByteSize + 49)
    (hnul : '\x00' ∉ name.toList) : checkText (rootBase d.root ++ (q ++ [name])) = .ok () := by
  have hne : rootBase d.root ++ q ≠ [] := List.append_ne_nil_of_right_ne_nil _ h.nonempty
  have hshort := h.short
  rw [← List.append_assoc, Files.Path.width_concat hne] at hshort
  refine Files.Tree.checkText_eq_ok.2 ⟨fun piece hpiece => ?_,
    Rooted.isEmpty (h.plain_of hname hsize) (by simp), ?_⟩
  · rw [← List.append_assoc] at hpiece
    rcases List.mem_append.1 hpiece with hpiece | hpiece
    · exact h.noNul piece (by rw [← List.append_assoc]; exact List.mem_append_left _ hpiece)
    · rwa [List.mem_singleton.1 hpiece]
  · rw [← List.append_assoc, Files.Path.width_concat hne]
    omega

theorem noNul_last (h : Site d loc bucket key q last) : '\x00' ∉ last.toList :=
  h.noNul last (by simp)

theorem noNul_name (h : Site d loc bucket key q last) (number : Nat) :
    '\x00' ∉ (Part.name last number).toList :=
  Part.not_mem_name h.noNul_last (by decide) (by decide)

theorem isName (h : Site d loc bucket key q last) (number : Nat) :
    Path.IsName (Part.name last number) := isName_name h.plain.last.1 number

theorem size_name (h : index < composeLimit) :
    (Part.name last (index + 1)).utf8ByteSize ≤ last.utf8ByteSize + 8 :=
  Part.utf8ByteSize_name_le h

theorem size_temp (h : index < composeLimit) (ticket : Nat) :
    (Files.TempName.of (Part.name last (index + 1)) ticket).utf8ByteSize ≤
      last.utf8ByteSize + 49 := by
  have hname : (Part.name last (index + 1)).utf8ByteSize ≤ last.utf8ByteSize + 8 := size_name h
  rw [Files.TempName.utf8ByteSize_of]
  omega

end Site

namespace Shelved

/-! ## Between two calls -/

theorem clear (h : Shelved d loc q last writes shelf s) (hsite : Site d loc bucket key q last) :
    ∀ pre, pre <+: q → s.tree.node? (under loc pre) = none ∨
      s.tree.node? (under loc pre) = some .dir := by
  intro pre hpre
  rcases h.above pre hpre with hsame | hdir
  · rw [hsame]
    exact hsite.clear pre hpre
  · exact .inr hdir

theorem rooted (h : Shelved d loc q last writes shelf s) (hsite : Site d loc bucket key q last) :
    s.tree.Rooted (rootBase d.root) loc := by
  refine hsite.rooted.of_kept h.here h.well fun a node hnode hnofile => ?_
  by_cases habove : ∃ pre, pre <+: q ∧ a = under loc pre
  · obtain ⟨pre, hpre, rfl⟩ := habove
    rcases h.above pre hpre with hsame | hdir
    · rw [hsame, hnode]
    · rcases hsite.clear pre hpre with hnone | hdir'
      · rw [hnone] at hnode
        cases hnode
      · rw [hdir, ← hdir', hnode]
  · by_cases hpart : ∃ index < composeLimit, a = Part.name last (index + 1) :: under loc q
    · obtain ⟨index, hindex, rfl⟩ := hpart
      obtain ⟨old, rfl⟩ := hsite.files index hindex node hnode
      exact absurd rfl (hnofile old)
    · rw [h.others a (fun pre hpre heq => habove ⟨pre, hpre, heq⟩)
        fun index hindex heq => hpart ⟨index, hindex, heq⟩, hnode]

theorem writable (h : Shelved d loc q last writes shelf s) (hsite : Site d loc bucket key q last)
    (hindex : index < composeLimit) :
    Writable s.tree (rootBase d.root) loc q (Part.name last (index + 1)) where
  rooted := h.rooted hsite
  plain := hsite.plain_of (hsite.isName _) (Nat.le_trans (Site.size_name hindex) (by omega))
  nonempty := hsite.nonempty
  clear := h.clear hsite
  file := by
    intro node hnode
    rw [h.parts index hindex] at hnode
    obtain ⟨content, -, rfl⟩ := Option.map_eq_some_iff.1 hnode
    exact ⟨content, rfl⟩
  text := hsite.checkText_of (hsite.isName _) (Nat.le_trans (Site.size_name hindex) (by omega))
    (hsite.noNul_name _)

theorem free (h : Shelved d loc q last writes shelf s) (hsite : Site d loc bucket key q last)
    (hwrites : writes ≤ composeLimit) (number : Nat) :
    s.tree.node? (Files.TempName.of (Part.name last number) s.ticket :: under loc q) = none := by
  rw [h.ticket, h.others _ (fun pre hpre heq => Files.Tree.under_ne_below hpre heq.symm)
    fun index hindex heq => name_ne_temp hindex number _ (List.cons.inj heq).1.symm]
  exact hsite.fresh writes hwrites _

theorem writable_temp (h : Shelved d loc q last writes shelf s)
    (hsite : Site d loc bucket key q last) (hwrites : writes ≤ composeLimit)
    (hindex : index < composeLimit) :
    Writable s.tree (rootBase d.root) loc q
      (Files.TempName.of (Part.name last (index + 1)) s.ticket) where
  rooted := h.rooted hsite
  plain := hsite.plain_of (Files.TempName.isName_of _ _) (Site.size_temp hindex _)
  nonempty := hsite.nonempty
  clear := h.clear hsite
  file := by
    intro node hnode
    rw [h.free hsite hwrites] at hnode
    cases hnode
  text := hsite.checkText_of (Files.TempName.isName_of _ _) (Site.size_temp hindex _)
    (Files.TempName.noNul_of (hsite.noNul_name _) _)

theorem openTo (h : Shelved d loc q last writes shelf s) (hsite : Site d loc bucket key q last)
    (name : String) : s.tree.Open loc (q ++ [name]) := fun pre hpre hne =>
  h.clear hsite pre ((List.prefix_concat_iff.1 hpre).resolve_left hne)

theorem objectPath (h : Shelved d loc q last writes shelf s)
    (hsite : Site d loc bucket key q last) (hindex : index < composeLimit)
    (hkey : checkKey (Part.name key (index + 1)) = .ok ()) :
    s.objectPath bucket (Part.name key (index + 1)) =
      .ok (rootBase d.root ++ (q ++ [Part.name last (index + 1)])) := by
  have hplace := placeOf_name hsite.place hsite.nonempty (index + 1)
  have hwritable := h.writable hsite hindex
  have hpath : s.objectPath bucket (Part.name key (index + 1)) =
      .ok (rootBase s.root ++ placeOf (bucket, Part.name key (index + 1))) := by
    have hrooted : s.tree.Rooted (rootBase s.root) loc := h.root ▸ h.rooted hsite
    refine objectPath_of_open (a := (bucket, Part.name key (index + 1))) hsite.valid hkey ?_ ?_
      (h.root ▸ hsite.text) hrooted ?_ fun p hlink => ?_
    · exact hplace ▸ hwritable.plain
    · exact h.root ▸ hplace ▸ hwritable.text
    · exact hplace ▸ h.openTo hsite _
    · rw [hplace, Files.under_concat] at hlink
      obtain ⟨old, heq⟩ := hwritable.file _ hlink
      cases heq
  rw [hpath, hplace, h.root]

/-- One file has changed, or is gone. -/
theorem put {content : Option Bytes} (h : Shelved d loc q last writes shelf s)
    (hindex : index < composeLimit)
    (haround : Around s.tree loc q (Part.name last (index + 1)) t)
    (hnode : t.node? (Part.name last (index + 1) :: under loc q) = content.map .file)
    {more ticket : Nat} (hticket : ticket = d.ticket + more) :
    Shelved d loc q last more (shelf.put index content) { s with tree := t, ticket } where
  root := h.root
  ticket := hticket
  here := haround.here.trans h.here
  well := haround.well
  above pre hpre := .inr (haround.made pre hpre)
  parts := by
    intro other hother
    rw [Shelf.put]
    split
    · next heq => rw [heq, hnode]
    · next hne =>
      have hname : Part.name last (other + 1) ≠ Part.name last (index + 1) := fun heq =>
        hne ((name_inj_of_lt hother hindex).1 heq)
      rw [haround.others _ (fun heq => hname (List.cons.inj heq).1)
        fun pre hpre heq => Files.Tree.under_ne_below hpre heq.symm, h.parts other hother]
  others a habove hparts := by
    rw [haround.others a (hparts index hindex) habove]
    exact h.others a habove hparts

/-! ## Writing -/

theorem replaceFile {fill : Path → Call Directory Nat} {bytes : Bytes}
    (h : Shelved d loc q last writes shelf s) (hsite : Site d loc bucket key q last)
    (hwrites : writes ≤ composeLimit) (hindex : index < composeLimit)
    (hfill : ∀ (temp : Path) (s' : Directory), s'.tree.Rooted (rootBase d.root) loc →
      (∀ pre, pre <+: q → s'.tree.node? (under loc pre) = some .dir) →
      (∀ other < composeLimit, s'.tree.node? (Part.name last (other + 1) :: under loc q) =
        (shelf other).map .file) → Fills temp (fill temp) s' (· = bytes) fun _ _ => False) :
    Ends (Directory.replaceFile (rootBase d.root ++ (q ++ [Part.name last (index + 1)])) fill) s
      (fun size t => size = bytes.length ∧
        Shelved d loc q last (writes + 1) (shelf.put index (some bytes)) t)
      (fun _ _ => False) := by
  have htemp := h.writable_temp hsite hwrites hindex
  obtain ⟨t, hdone, haround, hfile⟩ := replaceFile_ok (h.writable hsite hindex) htemp
    (h.free hsite hwrites _) fun temp s' haround => hfill temp s' (htemp.rooted_of_around haround)
      haround.made fun other hother => by
        rw [haround.others _ (fun heq => name_ne_temp hother _ _ (List.cons.inj heq).1)
          fun pre hpre heq => Files.Tree.under_ne_below hpre heq.symm, h.parts other hother]
  have hcontent : t.node? (Part.name last (index + 1) :: under loc q) =
      (some bytes).map .file := hfile
  refine Ends.of_ok hdone ⟨rfl, h.put hindex haround hcontent ?_⟩
  rw [h.ticket, Nat.add_assoc]

theorem create (h : Shelved d loc q last writes shelf s) (hsite : Site d loc bucket key q last)
    (hwrites : writes ≤ composeLimit) (hindex : index < composeLimit)
    (hkey : checkKey (Part.name key (index + 1)) = .ok ()) (data : Bytes) (uncompressed : Bool) :
    Ends (create bucket (Part.name key (index + 1)) data uncompressed) s
      (fun object t => object = ⟨bucket, Part.name key (index + 1), data.length⟩ ∧
        Shelved d loc q last (writes + 1) (shelf.put index (some data)) t)
      (fun _ _ => False) := by
  unfold Directory.create
  refine Ends.get_bind ?_
  rw [h.objectPath hsite hindex hkey, Call.ofExcept_ok, Call.pure_bind]
  refine Ends.bind (h.replaceFile hsite hwrites hindex fun _ _ _ _ _ =>
    fills_writeAll (Ends.pure ⟨rfl, rfl⟩)) ?_
  rintro size t ⟨rfl, hput⟩
  exact Ends.pure ⟨rfl, hput⟩

theorem createFromReader {contents : Reader} (h : Shelved d loc q last writes shelf s)
    (hsite : Site d loc bucket key q last) (hwrites : writes ≤ composeLimit)
    (hindex : index < composeLimit) (hkey : checkKey (Part.name key (index + 1)) = .ok ())
    (hsteady : contents.Steady) :
    Ends (createFromReader bucket (Part.name key (index + 1)) contents) s
      (fun object t => object = ⟨bucket, Part.name key (index + 1), contents.content.length⟩ ∧
        Shelved d loc q last (writes + 1) (shelf.put index (some contents.content)) t)
      (fun _ _ => False) := by
  unfold Directory.createFromReader
  refine Ends.get_bind ?_
  rw [h.objectPath hsite hindex hkey, Call.ofExcept_ok, Call.pure_bind]
  refine Ends.bind (h.replaceFile hsite hwrites hindex fun _ s' _ _ _ =>
    fills_copy_of_steady hsteady s') ?_
  rintro size t ⟨rfl, hput⟩
  exact Ends.pure ⟨rfl, hput⟩

/-! ## Composing -/

theorem objectPaths (h : Shelved d loc q last writes shelf s)
    (hsite : Site d loc bucket key q last) :
    ∀ {indices : List Nat}, (∀ index ∈ indices, index < composeLimit ∧
      checkKey (Part.name key (index + 1)) = .ok ()) →
      Directory.objectPaths s bucket (indices.map fun index => Part.name key (index + 1)) =
        .ok (indices.map fun index => (Part.name key (index + 1),
          rootBase d.root ++ (q ++ [Part.name last (index + 1)]))) := by
  intro indices
  induction indices with
  | nil => exact fun _ => rfl
  | cons index indices ih =>
    intro hindices
    rw [List.forall_mem_cons] at hindices
    rw [List.map_cons, Directory.objectPaths, h.objectPath hsite hindices.1.1 hindices.1.2,
      ih hindices.2]
    rfl

/-- The files of parts, read one after another. -/
theorem gather (hsite : Site d loc bucket key q last) (hrooted : t.Rooted (rootBase d.root) loc)
    (hmade : ∀ pre, pre <+: q → t.node? (under loc pre) = some .dir) {contents : Nat → Bytes} :
    ∀ {indices : List Nat}, (∀ index ∈ indices, index < composeLimit ∧
      t.node? (Part.name last (index + 1) :: under loc q) = some (.file (contents index))) →
      Directory.gather t (indices.map fun index => (Part.name key (index + 1),
          rootBase d.root ++ (q ++ [Part.name last (index + 1)]))) =
        .ok (indices.map contents).flatten := by
  intro indices
  induction indices with
  | nil => exact fun _ => rfl
  | cons index indices ih =>
    intro hindices
    rw [List.forall_mem_cons] at hindices
    obtain ⟨⟨hindex, hnode⟩, hmore⟩ := hindices
    have hsize : (Part.name last (index + 1)).utf8ByteSize ≤ last.utf8ByteSize + 49 :=
      Nat.le_trans (Site.size_name hindex) (by omega)
    have hopen : t.Open loc (q ++ [Part.name last (index + 1)]) := fun pre hpre hne =>
      .inr (hmade pre ((List.prefix_concat_iff.1 hpre).resolve_left hne))
    rw [← Files.under_concat] at hnode
    have hread : t.readFile (rootBase d.root ++ (q ++ [Part.name last (index + 1)])) =
        (some (contents index)).elim (.error (.system .missing)) .ok :=
      hrooted.readFile (hsite.plain_of (hsite.isName _) hsize) (by simp) hopen hnode
        (hsite.checkText_of (hsite.isName _) hsize (hsite.noNul_name _))
    rw [List.map_cons, Directory.gather, contentOf, hread, ih hmore]
    rfl

theorem compose {contents : List Bytes} (h : Shelved d loc q last writes shelf s)
    (hsite : Site d loc bucket key q last) (hwrites : writes ≤ composeLimit) (hsome : contents ≠ [])
    (hlength : contents.length ≤ composeLimit)
    (hkeys : ∀ index < contents.length, checkKey (Part.name key (index + 1)) = .ok ())
    (hcontents : ∀ index < contents.length, shelf index = contents[index]?) :
    Ends (compose bucket (Part.names key contents.length) key) s
      (fun object t => object = ⟨bucket, key, contents.flatten.length⟩ ∧
        Shelved d loc q last (writes + 1) (shelf.put 0 (some contents.flatten)) t)
      (fun _ _ => False) := by
  have hpositive : 0 < contents.length := List.length_pos_iff.2 hsome
  have hlimit : 0 < composeLimit := by decide
  have hcount : checkSourceCount (Part.names key contents.length).length = .ok () := by
    rw [Part.length_names, checkSourceCount, if_neg (by omega)]
  have hindices : ∀ index ∈ List.range contents.length, index < composeLimit ∧
      checkKey (Part.name key (index + 1)) = .ok () := by
    intro index hindex
    have hlt := List.mem_range.1 hindex
    exact ⟨by omega, hkeys index hlt⟩
  have hpath : s.objectPath bucket key =
      .ok (rootBase d.root ++ (q ++ [Part.name last (0 + 1)])) :=
    h.objectPath hsite hlimit (hkeys 0 hpositive)
  have hall : (List.range contents.length).map (fun index => contents[index]?.getD []) =
      contents := by
    refine List.ext_getElem (by simp) fun i hi hi' => ?_
    simp [List.getElem?_eq_getElem hi']
  have hcontent : ∀ s' : Directory, s'.tree.Rooted (rootBase d.root) loc →
      (∀ pre, pre <+: q → s'.tree.node? (under loc pre) = some .dir) →
      (∀ other < composeLimit, s'.tree.node? (Part.name last (other + 1) :: under loc q) =
        (shelf other).map .file) →
      (do Call.ofExcept (Directory.gather (← get).tree
          ((List.range contents.length).map fun index =>
            (Part.name key (index + 1), rootBase d.root ++ (q ++ [Part.name last (index + 1)])))) :
        Call Directory Bytes) s' = .ok contents.flatten s' := by
    intro s' hrooted hmade hparts
    have hgather : Directory.gather s'.tree ((List.range contents.length).map fun index =>
        (Part.name key (index + 1), rootBase d.root ++ (q ++ [Part.name last (index + 1)]))) =
          .ok ((List.range contents.length).map fun index => contents[index]?.getD []).flatten := by
      refine gather hsite hrooted hmade fun index hindex => ⟨(hindices index hindex).1, ?_⟩
      have hlt := List.mem_range.1 hindex
      rw [hparts index (hindices index hindex).1, hcontents index hlt, List.getElem?_eq_getElem hlt]
      rfl
    rw [Call.get_bind, hgather, hall]
    rfl
  unfold Directory.compose
  rw [hcount, Call.ofExcept_ok, Call.pure_bind]
  refine Ends.get_bind ?_
  rw [Part.names, h.objectPaths hsite hindices, Call.ofExcept_ok, Call.pure_bind]
  refine Ends.get_bind ?_
  rw [hpath, Call.ofExcept_ok, Call.pure_bind]
  refine Ends.bind (h.replaceFile hsite hwrites hlimit fun _ s' hrooted hmade hparts =>
    fills_writeAll (Ends.of_ok (hcontent s' hrooted hmade hparts) ⟨rfl, rfl⟩)) ?_
  rintro size t ⟨rfl, hput⟩
  exact Ends.pure ⟨rfl, hput⟩

/-! ## Deleting -/

theorem delete (h : Shelved d loc q last writes shelf s) (hsite : Site d loc bucket key q last)
    (hindex : index < composeLimit) (hkey : checkKey (Part.name key (index + 1)) = .ok ()) :
    Ends (delete bucket (Part.name key (index + 1))) s
      (fun _ t => Shelved d loc q last writes (shelf.put index none) t) (fun _ _ => False) := by
  have hwritable := h.writable hsite hindex
  have hremove := Files.Tree.removeFile_under hwritable.rooted hwritable.plain (h.openTo hsite _)
    (h.parts index hindex) hwritable.text
  have hdelete := delete_eq (h.objectPath hsite hindex hkey)
  rw [hremove] at hdelete
  cases hcontent : shelf index with
  | none =>
    rw [hcontent] at hdelete
    have hsame : shelf.put index none = shelf := by
      funext i
      rw [Shelf.put]
      split
      · next heq => rw [heq, hcontent]
      · rfl
    exact Ends.of_ok hdelete (hsame.symm ▸ h)
  | some content =>
    rw [hcontent] at hdelete
    have hfile := h.parts index hindex
    rw [hcontent] at hfile
    have hdir : s.tree.node? (under loc q) = some .dir := by
      have hsome : s.tree.node? (Part.name last (index + 1) :: under loc q) ≠ none :=
        hfile ▸ Option.some_ne_none _
      exact h.well.above hsome
    have haround := ((Paved.refl h.well hdir).around (Part.name last (index + 1))).erase
      hwritable.leaf
    have hgone : (s.tree.erase (Part.name last (index + 1) :: under loc q)).node?
        (Part.name last (index + 1) :: under loc q) = Option.map Node.file none := by
      rw [Files.Tree.node?_erase_cons, if_pos rfl]
      rfl
    exact Ends.of_ok hdelete (h.put hindex haround hgone h.ticket)

end Shelved

/-- The parts whose keys are valid are kept. -/
theorem Site.keeper {count : Nat} (hsite : Site d loc bucket key q last)
    (hlimit : count ≤ composeLimit)
    (hkeys : ∀ index < count, checkKey (Part.name key (index + 1)) = .ok ()) :
    Keeper Directory bucket key count (Shelved d loc q last) where
  limit := hlimit
  create data hwrites hindex h :=
    h.create hsite hwrites (Nat.lt_of_lt_of_le hindex hlimit) (hkeys _ hindex) data true
  stream hsteady hwrites hindex h :=
    h.createFromReader hsite hwrites (Nat.lt_of_lt_of_le hindex hlimit) (hkeys _ hindex) hsteady
  compose hwrites hsome hlength hcontents h :=
    h.compose hsite hwrites hsome (Nat.le_trans hlength hlimit)
      (fun index hindex => hkeys index (Nat.lt_of_lt_of_le hindex hlength)) hcontents
  delete hindex h := h.delete hsite (Nat.lt_of_lt_of_le hindex hlimit) (hkeys _ hindex)

/-! ## Parts that are refused -/

theorem objectPath_refused {error : StorageError} (hbucket : checkBucket bucket = .ok ())
    (hkey : checkKey key = .error error) : s.objectPath bucket key = .error error := by
  rw [Directory.objectPath, hbucket, hkey]
  rfl

theorem create_refused {error : StorageError} (hbucket : checkBucket bucket = .ok ())
    (hkey : checkKey key = .error error) (data : Bytes) (uncompressed : Bool) :
    create bucket key data uncompressed s = .error (.failed error) s := by
  rw [Directory.create, Call.get_bind, objectPath_refused hbucket hkey]
  rfl

theorem delete_refused {error : StorageError} (hbucket : checkBucket bucket = .ok ())
    (hkey : checkKey key = .error error) : delete bucket key s = .error (.failed error) s := by
  rw [Directory.delete, Call.get_bind, objectPath_refused hbucket hkey]
  rfl

end ChunkedUpload.Directory
