import ChunkedUpload.Proofs.S3.Faultless
import ChunkedUpload.Proofs.S3.Stalled
import ChunkedUpload.Proofs.Storage.Equivalence
import ChunkedUpload.Proofs.Storage.Residue
import ChunkedUpload.Proofs.Upload.CutOff

/-!
# Half-written artefacts

An upload and the sweep of its batch leave no temporary file behind and no multipart upload open,
with one exception: the upload was cut off while it wrote the rest of its stream as the last part
(`artefacts_iff_cut_off`). The sweep goes to the names of the parts, and what that call leaves
behind is not under one of them. Streams that are cut off there exist for every chunk size
(`stray_of_long`, `open_of_long`).
-/

namespace ChunkedUpload

open Call (Ends)
open Files (Location Path)

namespace Uploader

variable {bucket destination : String}

/-! ## What is left -/

/-- Among files, the upload leaves a stray one just if it is cut off. Its name is a temporary one,
and it holds what had come of the rest. -/
theorem stray_iff_cut_off (u : Uploader) (script : Reader.Script) (m : Metered Directory)
    (hwell : m.store.tree.WellFormed) (hunused : m.store.Unused bucket destination) :
    ∃ ending w swept, u.Leaves ⟨bucket, destination, script⟩ m ending w swept ∧
      ((∃ a, m.store.IsStray bucket destination swept.tree a) ↔ ∃ rest, CutOff ending w rest) ∧
      ∀ a, m.store.IsStray bucket destination swept.tree a →
        (∃ rest, CutOff ending w rest ∧ swept.tree.node? a = some (.file rest)) ∧
          ∃ name ticket, a.head? = some (Files.TempName.of name ticket) := by
  have hclean : m.store.Clean bucket destination 0 m.store := by
    refine ⟨rfl, ⟨0, Nat.le_refl 0, rfl⟩, hwell, hunused.tree, fun a hstray => ?_⟩
    obtain ⟨content, hfile⟩ := hstray.file
    exact hstray.new content hfile
  obtain ⟨ending, w, swept, hleaves, hends⟩ :=
    u.upload_settles script m (Directory.tidy hunused) hclean
  refine ⟨ending, w, swept, hleaves, ?_⟩
  rcases hends with ⟨hwhole, k, hswept⟩ | ⟨rest, hcut, b, hlittered⟩
  · refine ⟨⟨fun hstray => ?_, fun hcut => ?_⟩, fun a hstray => (hswept.noStray a hstray).elim⟩
    · obtain ⟨a, hstray⟩ := hstray
      exact (hswept.noStray a hstray).elim
    · obtain ⟨rest, hcut⟩ := hcut
      exact (hwhole rest hcut).elim
  · refine ⟨⟨fun _ => ⟨rest, hcut⟩, fun _ => ⟨b, hlittered.stray⟩⟩, fun a hstray => ?_⟩
    rw [hlittered.only a hstray]
    exact ⟨⟨rest, hcut, hlittered.file⟩, hlittered.name⟩

/-- At a service, the upload leaves a multipart upload open just if it is cut off when there is more
than fits into one request. -/
theorem open_iff_cut_off (u : Uploader) (script : Reader.Script) (m : Metered S3.Store)
    (hsound : m.store.server.Sound) :
    ∃ ending w swept, u.Leaves ⟨bucket, destination, script⟩ m ending w swept ∧
      ((∃ id ∈ swept.server.openIds, id ∉ m.store.server.openIds) ↔
        ∃ rest, CutOff ending w rest ∧ S3.leastPartSize ≤ rest.length) := by
  obtain ⟨ending, w, swept, hleaves, hends⟩ :=
    u.upload_settles script m (S3.Store.tidy _ bucket destination) (S3.Store.Clean.of_sound hsound)
  refine ⟨ending, w, swept, hleaves, ?_⟩
  rcases hends with ⟨hwhole, -, hswept⟩ | ⟨rest, hcut, hlittered⟩
  · refine ⟨fun hopen => ?_, fun hcut => ?_⟩
    · obtain ⟨id, hid, hnew⟩ := hopen
      exact absurd (hswept.closed hid) hnew
    · obtain ⟨rest, hcut, -⟩ := hcut
      exact (hwhole rest hcut).elim
  · refine ⟨fun hopen => ⟨rest, hcut, hlittered.opened.1 hopen⟩, fun hlong => ?_⟩
    obtain ⟨rest', hcut', hlong⟩ := hlong
    have hsame : some rest = some rest' := hcut.last.symm.trans hcut'.last
    cases hsame
    exact hlittered.opened.2 hlong

/-- **When an upload leaves half-written artefacts.** Whatever the stream and the store, after an
upload and the sweep of its batch there is a new temporary file, or a new open multipart upload,
just if the upload was cancelled while it wrote the rest of its stream as the last part; for a
multipart upload, if this rest has a full first part. The temporary file holds what had come of the
rest. -/
theorem artefacts_iff_cut_off (u : Uploader) (bucket destination : String)
    (script : Reader.Script) :
    (∀ m : Metered Directory, m.store.tree.WellFormed → m.store.Unused bucket destination →
      ∃ ending w swept, u.Leaves ⟨bucket, destination, script⟩ m ending w swept ∧
        ((∃ a, m.store.IsStray bucket destination swept.tree a) ↔
          ∃ rest, CutOff ending w rest) ∧
        ∀ a, m.store.IsStray bucket destination swept.tree a →
          (∃ rest, CutOff ending w rest ∧ swept.tree.node? a = some (.file rest)) ∧
            ∃ name ticket, a.head? = some (Files.TempName.of name ticket)) ∧
    ∀ m : Metered S3.Store, m.store.server.Sound →
      ∃ ending w swept, u.Leaves ⟨bucket, destination, script⟩ m ending w swept ∧
        ((∃ id ∈ swept.server.openIds, id ∉ m.store.server.openIds) ↔
          ∃ rest, CutOff ending w rest ∧ S3.leastPartSize ≤ rest.length) :=
  ⟨stray_iff_cut_off u script, open_iff_cut_off u script⟩

/-- An upload into an empty directory. -/
theorem unused_emptyRoot : emptyRoot.Unused "b" "d" where
  tree k _ :=
    have hshort : ∀ entry ∈ emptyRoot.tree.entries, (entry.1.headD "").utf8ByteSize < 41 := by
      decide
    show Directory.FreshTicket { emptyRoot with ticket := emptyRoot.ticket + k } from
      Directory.freshTicket_of_short hshort
  paths := by
    intro k _ name number _ hle hmem
    have hshort : ∀ number < composeLimit + 1,
        ∀ piece ∈ emptyRoot.partPath "b" "d" number, piece.utf8ByteSize < 41 := by decide +kernel
    have hlong := Files.TempName.utf8ByteSize_of name (emptyRoot.ticket + k)
    have := hshort number (by omega) _ hmem
    omega

theorem sound_emptyService : emptyService.server.Sound := ⟨rfl, nofun⟩

/-- Two uploads of a stream that is cut off, into an empty directory and to an empty service. -/
theorem artefacts_iff_cut_off_stalled :
    let script : Reader.Script := [.data (List.replicate 33 7) none, .stall]
    emptyRoot.tree.WellFormed ∧ emptyRoot.Unused "b" "d" ∧ emptyService.server.Sound ∧
      (∃ ending w swept, (⟨1, 0, {}⟩ : Uploader).Leaves ⟨"b", "d", script⟩ ⟨emptyRoot, {}⟩ ending w
          swept ∧
        ((∃ a, emptyRoot.IsStray "b" "d" swept.tree a) ↔ ∃ rest, CutOff ending w rest)) ∧
      ∃ ending w swept, (⟨1, 0, {}⟩ : Uploader).Leaves ⟨"b", "d", script⟩ ⟨emptyService, {}⟩ ending
          w swept ∧
        ((∃ id ∈ swept.server.openIds, id ∉ emptyService.server.openIds) ↔
          ∃ rest, CutOff ending w rest ∧ S3.leastPartSize ≤ rest.length) := by
  intro script
  obtain ⟨hfiles, hservice⟩ := artefacts_iff_cut_off ⟨1, 0, {}⟩ "b" "d" script
  obtain ⟨ending, w, swept, hleaves, hstray, -⟩ :=
    hfiles ⟨emptyRoot, {}⟩ empty_emptyRoot.well unused_emptyRoot
  exact ⟨empty_emptyRoot.well, unused_emptyRoot, sound_emptyService,
    ⟨ending, w, swept, hleaves, hstray⟩, hservice ⟨emptyService, {}⟩ sound_emptyService⟩

end Uploader

/-! ## Uploads that are cut off -/

/-- The parts of an upload have names that files can have side by side, there is room for their
temporary files, and whatever else is below the root does not get in their way. -/
structure Directory.Hosts (d : Directory) (bucket destination : String) (used : List Address) :
    Prop where
  holds : ∃ loc objects, Holds d.root loc used d objects
  suitable : Suitable d.root used
  parts : ∀ number, 1 ≤ number → number ≤ composeLimit →
    (bucket, Part.name destination number) ∈ used ∧
      Roomy d.root (bucket, Part.name destination number)
  fresh : ∀ k < composeLimit, Fresh used (d.ticket + k)

/-- Such a directory takes the parts. -/
theorem Directory.Hosts.accepts {d : Directory} {bucket destination : String}
    {used : List Address} (h : d.Hosts bucket destination used) (rest : Bytes) :
    Accepts Directory bucket destination rest fun n s =>
      (∃ loc objects, Holds d.root loc used s objects) ∧ ∃ k ≤ n, s.ticket = d.ticket + k where
  create {n s} data hroom hready := by
    obtain ⟨⟨loc, objects, hholds⟩, k, hk, hticket⟩ := hready
    obtain ⟨hused, hroomy⟩ := h.parts (n + 1) (Nat.succ_pos n) (Nat.le_of_lt hroom)
    refine (create_agree hholds h.suitable (hticket ▸ h.fresh k (by omega)) hused hroomy data
      true).ends.mono (fun _ t hfollows => ?_) fun _ _ h => h
    have hleast : s.ticket ≤ t.ticket := hfollows.ticket.1
    have hmost : t.ticket ≤ s.ticket + 1 := hfollows.ticket.2
    exact ⟨⟨loc, _, hfollows.holds⟩, t.ticket - d.ticket, by omega, by omega⟩
  stream {s contents} hdries _ hready := by
    obtain ⟨⟨loc, objects, hholds⟩, k, hk, hticket⟩ := hready
    obtain ⟨hused, hroomy⟩ := h.parts composeLimit (by decide) (Nat.le_refl _)
    have hlimit : composeLimit - 1 < composeLimit := by decide
    exact Ends.of_abandons (abandons_createFromReader hholds h.suitable
      (hticket ▸ h.fresh k (by omega)) hused hroomy hdries.drain)

/-- So does a service that answers everything, if the rest has not too many parts for it. -/
theorem S3.Store.accepts {lenient : Bool} {c : S3.Client} {bucket destination : String}
    {rest : Bytes} (hbucket : bucket ≠ "") (hdestination : destination ≠ "")
    (hfew : rest.length < (S3.mostParts + 1) * S3.leastPartSize) :
    Accepts S3.Store bucket destination rest fun _ s => ∃ objects, At lenient c objects [] s where
  create {n s} data _ hready := by
    obtain ⟨objects, hat⟩ := hready
    obtain ⟨s', hput, hat'⟩ := put_at hat hbucket (Part.name_ne_empty hdestination (n + 1)) data
    exact Ends.of_ok hput ⟨_, hat'⟩
  stream {s contents} hdries hflow hready := by
    obtain ⟨objects, hat⟩ := hready
    exact Ends.of_abandons (createFromReader_stalled hat hbucket
      (Part.name_ne_empty hdestination composeLimit) hdries (hflow ▸ hfew))

namespace Uploader

/-- Whatever the chunk size, a stream of more than 31 chunks that stalls leaves a stray file with
what had come behind the 31 chunks. -/
theorem stray_of_long (u : Uploader) {bucket destination : String} {script : Reader.Script}
    {used : List Address} (m : Metered Directory) (hwell : m.store.tree.WellFormed)
    (hunused : m.store.Unused bucket destination)
    (hhosts : m.store.Hosts bucket destination used) (hchunk : 0 < u.chunkSize)
    (hdries : script.Dries) (hlong : (composeLimit - 1) * u.chunkSize < script.flow.length) :
    ∃ ending w swept, u.Leaves ⟨bucket, destination, script⟩ m ending w swept ∧
      ∃ a, m.store.IsStray bucket destination swept.tree a ∧
        swept.tree.node? a =
            some (.file (script.flow.drop ((composeLimit - 1) * u.chunkSize))) ∧
          ∃ name ticket, a.head? = some (Files.TempName.of name ticket) := by
  obtain ⟨ending, w, swept, hleaves, hstray, hform⟩ :=
    u.stray_iff_cut_off script m hwell hunused
  have hcut := cut_off_of_long hleaves (hhosts.accepts _) ⟨hhosts.holds, 0, Nat.le_refl 0, rfl⟩
    hchunk hdries hlong
  obtain ⟨a, ha⟩ := hstray.2 ⟨_, hcut⟩
  obtain ⟨⟨rest, hcut', hfile⟩, hname⟩ := hform a ha
  have hsame : some rest = some _ := hcut'.last.symm.trans hcut.last
  cases hsame
  exact ⟨ending, w, swept, hleaves, a, ha, hfile, hname⟩

/-- Whatever the chunk size, a stream that stalls after 31 chunks and 5 MiB leaves a multipart
upload open. -/
theorem open_of_long (u : Uploader) {bucket destination : String} {script : Reader.Script}
    {lenient : Bool} {c : S3.Client} {objects : ObjectMap} (m : Metered S3.Store)
    (hat : S3.Store.At lenient c objects [] m.store) (hbucket : bucket ≠ "")
    (hdestination : destination ≠ "")
    (hchunk : 0 < u.chunkSize) (hdries : script.Dries)
    (hlong : (composeLimit - 1) * u.chunkSize + S3.leastPartSize ≤ script.flow.length)
    (hfew : script.flow.length <
      (composeLimit - 1) * u.chunkSize + (S3.mostParts + 1) * S3.leastPartSize) :
    ∃ ending w swept, u.Leaves ⟨bucket, destination, script⟩ m ending w swept ∧
      ∃ id ∈ swept.server.openIds, id ∉ m.store.server.openIds := by
  have hleast : 0 < S3.leastPartSize := by decide
  have hsound : m.store.server.Sound := by
    refine ⟨hat.serves.faults, fun id hid => ?_⟩
    rw [S3.Server.openIds, hat.serves.uploads] at hid
    cases hid
  obtain ⟨ending, w, swept, hleaves, hopen⟩ := u.open_iff_cut_off script m hsound
  have hrest : (script.flow.drop ((composeLimit - 1) * u.chunkSize)).length =
      script.flow.length - (composeLimit - 1) * u.chunkSize := List.length_drop
  have hfits : (script.flow.drop ((composeLimit - 1) * u.chunkSize)).length <
      (S3.mostParts + 1) * S3.leastPartSize := by omega
  have hcut := cut_off_of_long hleaves (S3.Store.accepts hbucket hdestination hfits)
    ⟨objects, hat⟩ hchunk hdries (by omega)
  exact ⟨ending, w, swept, hleaves, hopen.2 ⟨_, hcut, by omega⟩⟩

/-- The parts of one upload into an empty directory. -/
theorem hosts_emptyRoot : emptyRoot.Hosts "b" "d"
    ((Part.names "d" composeLimit).map fun key => ("b", key)) := by
  obtain ⟨loc, hholds⟩ := empty_emptyRoot.holds
    ((Part.names "d" composeLimit).map fun key => ("b", key))
  refine ⟨⟨loc, _, hholds⟩, ⟨fun a ha => ?_, by decide +kernel, by decide +kernel⟩,
    fun number hpos hle => ⟨?_, ?_⟩, fun k _ a ha piece hpiece name => ?_⟩
  · obtain ⟨key, hkey, rfl⟩ := List.mem_map.1 ha
    have hkeys : ∀ key ∈ Part.names "d" composeLimit, ∀ piece ∈ Path.ofText key, piece ≠ "" ∧
        piece ≠ "." ∧ Directory.hasDoubleDot piece.toList = false ∧ '\x00' ∉ piece.toList ∧
        piece.toList.head? ≠ some '\\' ∧
        piece.utf8ByteSize + Files.TempName.suffixLength ≤ Files.Tree.nameMax := by decide +kernel
    have hbucket : "b" ≠ "" ∧ "b".toList.all Char.isAlphanum = true ∧
        "b".utf8ByteSize ≤ Files.Tree.nameMax := by decide +kernel
    exact ⟨⟨hbucket.1, List.all_eq_true.1 hbucket.2.1, hbucket.2.2⟩, hkeys key hkey⟩
  · exact List.mem_map_of_mem (Part.mem_names.2 ⟨number - 1, by omega, by
      rw [Nat.sub_add_cancel hpos]⟩)
  · have hroomy : ∀ number < composeLimit + 1,
        (Directory.pathOf emptyRoot.root "b" (Part.name "d" number)).width +
          Files.TempName.suffixLength < Files.Tree.pathMax := by decide +kernel
    exact hroomy number (by omega)
  · rintro rfl
    obtain ⟨key, hkey, rfl⟩ := List.mem_map.1 ha
    have hshort : ∀ key ∈ Part.names "d" composeLimit, ∀ piece ∈ Path.ofText key,
        piece.utf8ByteSize < 41 := by decide +kernel
    have := hshort key hkey _ hpiece
    rw [Files.TempName.utf8ByteSize_of] at this
    omega

/-- The sweep does not get at all that an upload may leave: a stream of 33 bytes in chunks of one
byte that stalls leaves the temporary file of its last part, with two bytes. -/
theorem stray_of_stall :
    ∃ ending w swept, (⟨1, 0, {}⟩ : Uploader).Leaves
        ⟨"b", "d", [.data (List.replicate 33 7) none, .stall]⟩ ⟨emptyRoot, {}⟩ ending w swept ∧
      ∃ a, emptyRoot.IsStray "b" "d" swept.tree a ∧ swept.tree.node? a = some (.file [7, 7]) ∧
        ∃ name ticket, a.head? = some (Files.TempName.of name ticket) := by
  have hdries : Reader.Script.Dries [.data (List.replicate 33 7) none, .stall] := by
    refine ⟨[.data (List.replicate 33 7) none], fun step hstep => ?_, rfl⟩
    rw [List.mem_singleton.1 hstep]
    exact nofun
  exact stray_of_long ⟨1, 0, {}⟩ ⟨emptyRoot, {}⟩ empty_emptyRoot.well unused_emptyRoot
    hosts_emptyRoot Nat.one_pos hdries (by decide)

end Uploader

end ChunkedUpload
