import ChunkedUpload.Proofs.S3.LegalParts
import ChunkedUpload.Proofs.Upload.FullParts
import ChunkedUpload.Storage.Backend
import ChunkedUpload.Upload.Uploader

/-!
# Valid settings make legal uploads

A configuration of a service is valid only if its chunks are large enough for parts that others
follow (`least_of_validate`). All parts of an upload but the last are full chunks, so the compose
that ends it copies large objects, and the service is never asked to complete an upload with parts
that it would refuse (`upload_lawful`).
-/

namespace ChunkedUpload

open Call (Ends)

namespace S3.Store

variable {start s t : Store} {bucket destination : String} {size n : Nat}

/-- A service with the first `n` parts of an upload, each of which is large. What was said to get
there completed uploads with legal parts only. -/
structure Stocked (start : Store) (bucket destination : String) (n : Nat) (s : Store) : Prop where
  lawfully : start.Lawfully s
  faithful : s.server.Faithful
  parts : ∀ k < n, Large s.server s.client bucket (Part.name destination (k + 1))

theorem Stocked.initial (h : start.server.Faithful) : Stocked start bucket destination 0 start :=
  ⟨.refl start, h, nofun⟩

/-- Another part leaves those before it alone, and is one more if it is large. -/
theorem Stocked.add {data : Bytes} (h : Stocked start bucket destination n s)
    (hroom : n < composeLimit) (hlawfully : s.Lawfully t)
    (hobjects : t.server.objects = s.server.objects.insert
      (bucket, s.client.fullKey (Part.name destination (n + 1))) data) :
    Stocked start bucket destination n t ∧
      (leastPartSize ≤ data.length → Stocked start bucket destination (n + 1) t) := by
  have ⟨es, htalk, _⟩ := hlawfully
  have hbound : composeLimit ≤ Part.maxNumber := by decide
  have hkept : ∀ k < n, Large t.server t.client bucket (Part.name destination (k + 1)) := by
    intro k hk
    obtain ⟨content, hget, hleast⟩ := h.parts k hk
    refine ⟨content, ?_, hleast⟩
    rw [htalk.client, hobjects, ObjectMap.get?_insert, if_neg, hget]
    rintro hsame
    have hname := Client.fullKey_inj (Prod.mk.inj hsame).2
    have := (Part.name_inj (by omega) (by omega) (by omega) (by omega)).1 hname
    omega
  have hfaithful := h.faithful.talk htalk.talk
  refine ⟨⟨h.lawfully.trans hlawfully, hfaithful, hkept⟩, fun hleast => ?_⟩
  refine ⟨h.lawfully.trans hlawfully, hfaithful, fun k hk => ?_⟩
  rcases Nat.lt_succ_iff_lt_or_eq.1 hk with hk | rfl
  · exact hkept k hk
  · refine ⟨data, ?_, hleast⟩
    rw [htalk.client, hobjects, ObjectMap.get?_insert, if_pos rfl]

/-- What an upload needs to know of a service, if chunks are large enough. -/
theorem fullParts (hsize : leastPartSize ≤ size) (start : Store) (bucket destination : String) :
    Session.FullParts bucket destination size (Stocked start bucket destination)
      start.Lawfully where
  fewer h := ⟨h.lawfully, h.faithful, fun k hk => h.parts k (Nat.lt_succ_of_lt hk)⟩
  safe_of_held h := h.lawfully
  part {n s} data hroom h := by
    refine ((ends_create_lawful s bucket _ data true).and
      (ends_create_whole s bucket _ data true)).mono ?_ ?_
    · rintro _ t ⟨hlawfully, hobjects⟩
      obtain ⟨hkept, hmore⟩ := h.add (Nat.lt_of_succ_lt hroom) hlawfully hobjects
      exact ⟨hkept, fun hfull => hmore (hfull ▸ hsize)⟩
    · rintro _ t ⟨hlawfully, -⟩
      exact h.lawfully.trans hlawfully
  rest {s contents} hfinal h := by
    refine ((ends_stream_lawful s bucket _ hfinal).and
      (ends_stream_whole h.faithful.issued hfinal)).mono ?_ ?_
    · rintro _ t ⟨hlawfully, -, hobjects⟩
      exact (h.add (by decide) hlawfully hobjects).1
    · rintro _ t ⟨hlawfully, -⟩
      exact h.lawfully.trans hlawfully
  compose {n s} hroom h := by
    have hsome : Part.names destination (n + 1) ≠ [] := by
      rw [Part.names_succ]
      exact List.append_ne_nil_of_right_ne_nil _ (List.cons_ne_nil _ _)
    have hlarge : ∀ source ∈ (Part.names destination (n + 1)).dropLast,
        Large s.server s.client bucket source := by
      intro source hsource
      rw [Part.names_succ, List.dropLast_concat] at hsource
      obtain ⟨k, hk, rfl⟩ := Part.mem_names.1 hsource
      exact h.parts k hk
    refine (ends_compose_lawful h.faithful hsome hlarge).mono ?_ ?_
    · intro _ t hlawfully
      exact h.lawfully.trans hlawfully
    · intro _ t hlawfully
      exact h.lawfully.trans hlawfully

end S3.Store

/-! ## Valid settings -/

theorem AppConfig.least_of_validate {config : AppConfig} (h : config.validate = .ok ())
    (hservice : config.storage.isService = true) :
    leastServiceChunk ≤ config.uploader.chunkSize := by
  refine Nat.le_of_not_lt fun hsmall => ?_
  unfold validate at h
  cases huploader : config.uploader.validate <;> rw [huploader] at h
  · cases h
  cases hstorage : config.storage.validate <;> rw [hstorage] at h
  · cases h
  have hrefused : (if config.storage.isService = true ∧
      config.uploader.chunkSize < leastServiceChunk then
        Except.error (ConfigError.chunkTooSmall config.uploader.chunkSize leastServiceChunk)
      else pure ()) = .ok () := h
  rw [if_pos ⟨hservice, hsmall⟩] at hrefused
  cases hrefused

/-- The store that is opened for a service is in the state in which the service is. -/
theorem Backend.server_of_openAt {config : StorageConfig} {around : Surroundings}
    {store : S3.Store} {tree : Files.Tree}
    (h : openAt config around = (.ok (.service store), tree)) :
    config.isService = true ∧ store.server = around.server := by
  unfold openAt at h
  split at h
  · cases h
  · rename_i path _
    rcases hdirectory : Directory.openAt (Files.Path.ofText path) around.tree around.ticket with
      ⟨_ | _, _⟩ <;> rw [hdirectory] at h <;> cases h
  · rename_i settings _
    refine ⟨rfl, ?_⟩
    cases hclient : S3.Client.new settings <;> rw [hclient] at h <;> cases h
    rfl

namespace Uploader

/-- **Valid settings make legal uploads.** Whatever stream is uploaded to a service without faults,
as long as reads that hand out nothing are its end, every multipart upload that is completed has
parts that are numbered from 1 on, that are not too many, and each of which but the last is neither
too small nor too large. It does not matter whether the upload succeeds. -/
theorem upload_lawful {config : AppConfig} {around : Backend.Surroundings} {store : S3.Store}
    {tree : Files.Tree} (hvalid : config.validate = .ok ())
    (hstore : Backend.openAt config.storage around = (.ok (.service store), tree))
    (hfaithful : around.server.Faithful) {u : Uploader}
    (hchunk : u.chunkSize = config.uploader.chunkSize) {request : UploadRequest}
    (hfinal : request.script.Final) (metrics : Metrics) :
    ∃ requests, (u.upload request ⟨store, metrics⟩).2.2.store.server.log =
        around.server.log ++ requests ∧ around.server.Lawful requests := by
  obtain ⟨hservice, hserver⟩ := Backend.server_of_openAt hstore
  have hleast : S3.leastPartSize ≤ u.chunkSize :=
    hchunk ▸ AppConfig.least_of_validate hvalid hservice
  rw [← hserver] at hfaithful ⊢
  have hwindow : 0 < Reader.defaultWindow := by decide
  have hready : Session.Ready u.chunkSize (u.session request ⟨store, metrics⟩) :=
    ⟨hfinal, hwindow, rfl⟩
  have hrun := (S3.Store.fullParts hleast store request.bucket request.destination).run hready
    (.initial hfaithful) rfl
  obtain ⟨ending, t, metrics', hupload, hending⟩ := upload_ends u request hrun
  have hlawfully : store.Lawfully t.store := by
    rcases hending with ⟨_, -, h⟩ | ⟨_, -, h⟩ | ⟨-, h⟩ <;> exact h
  obtain ⟨es, htalk, hlawful⟩ := hlawfully
  refine ⟨es.map (·.request), ?_, hlawful⟩
  rw [hupload]
  exact htalk.talk.log

/-- A service that has an object and an open upload already. -/
def inUse : Backend.Surroundings where
  tree := {}
  server := {
    objects := ⟨[(("b", "d"), [1])]⟩
    uploads := [⟨S3.Server.idOf 1, ("b", "d"), []⟩]
    issued := 1 }
  reachable := true

/-- A stream of two chunks of the default size, or almost. -/
theorem upload_lawful_twoChunks :
    let config : AppConfig := { storage := .service {} }
    let store : S3.Store :=
      ⟨⟨none, "s3." ++ S3.Client.defaultRegion ++ ".amazonaws.com", S3.Client.defaultRegion⟩,
        inUse.server, true⟩
    let request : UploadRequest := ⟨"b", "d", [.data (List.replicate 10000000 7) (some 4096)]⟩
    config.validate = .ok () ∧
      Backend.openAt config.storage inUse = (.ok (.service store), inUse.tree) ∧
      inUse.server.Faithful ∧ request.script.Final ∧
      ∃ u, new config.uploader = .ok u ∧ ∃ requests,
        (u.upload request ⟨store, {}⟩).2.2.store.server.log = inUse.server.log ++ requests ∧
        inUse.server.Lawful requests := by
  intro config store request
  have hstore : Backend.openAt config.storage inUse = (.ok (.service store), inUse.tree) := rfl
  have hfaithful : inUse.server.Faithful :=
    { faultless := rfl
      truthful := rfl
      issued := fun id hid => ⟨1, Nat.le_refl 1, List.mem_singleton.1 hid⟩ }
  have hfinal : request.script.Final :=
    Reader.Script.final_of_no_pause (List.forall_mem_singleton.2 nofun)
  exact ⟨rfl, hstore, hfaithful, hfinal, ⟨config.uploader.chunkSize, 0, {}⟩, rfl,
    upload_lawful rfl hstore hfaithful rfl hfinal {}⟩

end Uploader

end ChunkedUpload
