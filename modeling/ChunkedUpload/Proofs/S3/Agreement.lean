import ChunkedUpload.Proofs.S3.Multipart

/-!
# A store on a service is a map

`Holds lenient c s m`: the client `c` reaches a service without faults, lenient or not, which has
the objects of `m` and no upload open. Requests come to the same there and on the map, and leave the
two related (`request_agree`), but for one kind: a service that is not lenient refuses to join
objects of which one that is not the last is small (`compose_differs`). `Fit` is what all other
requests are.
-/

namespace ChunkedUpload.S3.Store

open Call (Agree)

variable {lenient : Bool} {c : Client} {s : Store} {m : ObjectMap} {bucket key : String}

/-- The service has the objects of a map and no open upload. -/
def Holds (lenient : Bool) (c : Client) (s : Store) (m : ObjectMap) : Prop :=
  ∃ objects, At lenient c objects [] s ∧ Mirrors c m objects

/-- No object is too large for one copy. -/
def Small (m : ObjectMap) : Prop :=
  ∀ address content, m.get? address = some content → content.length ≤ mostCopied

theorem small_of_entries (h : ∀ entry ∈ m.entries, entry.2.length ≤ mostCopied) : Small m := by
  intro address content hget
  exact h _ (mem_of_lookup hget)

theorem Mirrors.insert {objects : ObjectMap} (h : Mirrors c m objects) (bucket key : String)
    (content : Bytes) :
    Mirrors c (m.insert (bucket, key) content)
      (objects.insert (bucket, c.fullKey key) content) := by
  intro bucket' key'
  rw [ObjectMap.get?_insert, ObjectMap.get?_insert, h]
  simp only [Client.fullAddress_inj]

theorem Mirrors.erase {objects : ObjectMap} (h : Mirrors c m objects) (bucket key : String) :
    Mirrors c (m.erase (bucket, key)) (objects.erase (bucket, c.fullKey key)) := by
  intro bucket' key'
  rw [ObjectMap.get?_erase, ObjectMap.get?_erase, h]
  simp only [Client.fullAddress_inj]

theorem put_agree (h : Holds lenient c s m) (hbucket : bucket ≠ "") (hkey : key ≠ "")
    (data : Bytes) :
    Agree (Holds lenient c) (put bucket key data s) (ObjectMap.put bucket key data m) := by
  obtain ⟨objects, hs, hmirrors⟩ := h
  obtain ⟨s', hput, hs'⟩ := put_at hs hbucket hkey data
  rw [hput]
  exact ⟨rfl, _, hs', hmirrors.insert bucket key data⟩

theorem delete_agree (h : Holds lenient c s m) (hbucket : bucket ≠ "") (hkey : key ≠ "") :
    Agree (Holds lenient c) (delete bucket key s) (ObjectStore.delete bucket key m) := by
  obtain ⟨objects, hs, hmirrors⟩ := h
  obtain ⟨s', hdelete, hs'⟩ := delete_at hs hbucket hkey
  rw [hdelete]
  exact ⟨rfl, _, hs', hmirrors.erase bucket key⟩

theorem read_agree (h : Holds lenient c s m) (hbucket : bucket ≠ "") (hkey : key ≠ "") :
    Agree (Holds lenient c) (read bucket key s) (ObjectMap.read bucket key m) := by
  obtain ⟨objects, hs, hmirrors⟩ := h
  obtain ⟨s', hs', hread⟩ := read_at hs hbucket hkey
  rw [hread, hmirrors, ObjectMap.read_eq]
  cases m.get? (bucket, key) with
  | some content => exact ⟨rfl, objects, hs', hmirrors⟩
  | none => exact ⟨rfl, objects, hs', hmirrors⟩

/-- A stream is sent whole, in one request or in parts. -/
theorem createFromReader_agree (h : Holds lenient c s m) (hbucket : bucket ≠ "") (hkey : key ≠ "")
    {contents : Reader} (hsteady : contents.Steady) (hsize : contents.content.length ≤ mostCopied) :
    Agree (Holds lenient c) (createFromReader bucket key contents s)
      (ObjectMap.createFromReader bucket key contents m) := by
  have hfirst := filling_refill hsteady (roomy_streamPartSize 1 [])
  rw [ObjectMap.createFromReader_eq bucket key hsteady, createFromReader, filled_eq hfirst.stop,
    Call.pure_bind]
  generalize Reader.refill ⟨streamPartSize 1, []⟩ contents = first at hfirst
  by_cases hshort : first.count < leastPartSize
  · have hall : first.chunk = contents.content := by
      have hend : first.rest.content = [] := hfirst.full.resolve_right fun hwhole => by
        have hlong := hfirst.roomy.1
        rw [← hwhole, ← hfirst.count] at hlong
        exact absurd hshort (Nat.not_lt.2 hlong)
      rw [← hfirst.joined, hend, List.append_nil]
    rw [if_pos hshort, hall]
    exact put_agree h hbucket hkey contents.content
  · obtain ⟨objects, hs, hmirrors⟩ := h
    have hfull := Client.fullKey_ne_empty (c := c) hkey
    obtain ⟨id, s₁, hstart, hs₁⟩ := startUpload_at hs hbucket hfull
    obtain ⟨parts, sent, next, pieces, s₂, hparts, hs₂, hsent, hslices, hmost⟩ :=
      uploadParts_at hbucket hfull hfirst hs₁ (.nil id) (by decide)
        (by rwa [Nat.zero_add]) (.inr (Nat.zero_mul _ ▸ Nat.zero_le _))
    rw [List.nil_append] at hsent
    have hsome : pieces ≠ [] := by
      rintro rfl
      have hnil : first.chunk = [] :=
        (List.append_eq_nil_iff.1 (hfirst.joined.trans hslices.joined.symm)).1
      rw [hfirst.count, hnil] at hshort
      exact hshort (by decide)
    obtain ⟨s₃, hcomplete, hs₃⟩ := completeUpload_at hs₂ hbucket hfull hsent
      ((hsent.joinable_iff lenient hsome hmost).2 (hslices.ample lenient))
    rw [hslices.joined] at hs₃
    rw [Nat.zero_add] at hparts
    rw [if_neg hshort, Call.bind_of_ok (fullKey_at hs), Call.bind_of_ok hstart,
      Call.bind_of_ok (Call.onFailure_of_ok (a := contents.content.length) (t := s₃) ?_)]
    · exact ⟨rfl, _, hs₃, hmirrors.insert bucket key contents.content⟩
    · rw [Call.bind_of_ok hparts]
      show (completeUpload bucket (c.fullKey key) id parts >>= _) s₂ = _
      rw [Call.bind_of_ok hcomplete]
      rfl

/-! ## Joining objects -/

/-- Objects that are all there are joined if they are large enough. Otherwise, or if one is missing,
the upload is dropped. -/
theorem joinParts_at {objects : ObjectMap} {full id : String} {sources : List String}
    (h : At lenient c objects [⟨id, (bucket, full), []⟩] s) (hmirrors : Mirrors c m objects)
    (hsmall : Small m) (hbucket : bucket ≠ "") (hslash : '/' ∉ bucket.toList) (hfull : full ≠ "")
    (hsources : ∀ source ∈ sources, source ≠ "") (hsome : sources ≠ [])
    (hcount : sources.length ≤ composeLimit) :
    let joining := Call.onFailure (abortUpload bucket full id) do
      let parts ← copyParts bucket full id sources 1
      completeUpload bucket full id parts
    match m.gather bucket sources with
    | .error error => ∃ s', joining s = .error (.failed error) s' ∧ At lenient c objects [] s'
    | .ok content => ∃ pieces,
        sources.map (fun source => m.get? (bucket, source)) = pieces.map some ∧
        (Ample lenient pieces → ∃ s', joining s = .ok () s' ∧
          At lenient c (objects.insert (bucket, full) content) [] s') ∧
        (¬ Ample lenient pieces → ∃ s', joining s = .error (.failed refusal) s' ∧
          At lenient c objects [] s') := by
  intro joining
  have hcopies := copyParts_at hbucket hslash hfull hmirrors hsmall hsources
    (by simp only [composeLimit, mostParts] at hcount ⊢; omega) h (.nil id)
  cases hgather : m.gather bucket sources with
  | error error =>
    rw [hgather] at hcopies
    obtain ⟨sent, s₁, hfailed, hs₁⟩ := hcopies
    exact ⟨_, Call.onFailure_of_failed (Call.bind_of_error hfailed),
      abortUpload_at hs₁ hbucket hfull⟩
  | ok content =>
    rw [hgather] at hcopies
    obtain ⟨pieces, parts, sent, s₁, hparts, hs₁, hsent, hpieces, rfl⟩ := hcopies
    rw [List.nil_append, List.nil_append] at hsent
    have hnonempty : pieces ≠ [] := by
      rintro rfl
      exact hsome (List.map_eq_nil_iff.1 hpieces)
    have hfew : 1 + sources.length ≤ mostParts + 1 := by
      simp only [composeLimit, mostParts] at hcount ⊢
      omega
    have hjoinable := hsent.joinable_iff lenient hnonempty hfew
    refine ⟨pieces, hpieces, fun hample => ?_, fun hsmall => ?_⟩
    · obtain ⟨s₂, hcomplete, hs₂⟩ :=
        completeUpload_at hs₁ hbucket hfull hsent (hjoinable.2 hample)
      exact ⟨s₂, Call.onFailure_of_ok ((Call.bind_of_ok hparts).trans hcomplete), hs₂⟩
    · obtain ⟨s₂, hrefused, hs₂⟩ :=
        completeUpload_refused_at hs₁ hbucket hfull hsent (mt hjoinable.1 hsmall)
      exact ⟨_, Call.onFailure_of_failed ((Call.bind_of_ok hparts).trans hrefused),
        abortUpload_at hs₂ hbucket hfull⟩

/-- If a request joins objects that are all there, the service takes them as parts. -/
def Fit (lenient : Bool) (m : ObjectMap) : ChunkedUpload.Request → Prop
  | .compose bucket sources _ => sources.length ≤ composeLimit → ∀ contents : List Bytes,
      sources.map (fun source => m.get? (bucket, source)) = contents.map some →
      Ample lenient contents
  | _ => True

theorem fit_of_lenient (m : ObjectMap) (request : ChunkedUpload.Request) : Fit true m request := by
  cases request <;> first | exact trivial | exact fun _ _ _ => .inl rfl

/-- A compose comes to the same, if the service takes the objects as parts. -/
theorem compose_agree (h : Holds lenient c s m) (hbucket : bucket ≠ "")
    (hslash : '/' ∉ bucket.toList) {sources : List String} {destination : String}
    (hsources : ∀ source ∈ sources, source ≠ "") (hdestination : destination ≠ "")
    (hsmall : Small m) (hfit : Fit lenient m (.compose bucket sources destination)) :
    Agree (Holds lenient c) (compose bucket sources destination s)
      (ObjectMap.compose bucket sources destination m) := by
  obtain ⟨objects, hs, hmirrors⟩ := h
  rw [ObjectMap.compose_eq, compose]
  cases hcount : checkSourceCount sources.length with
  | error error => exact ⟨rfl, objects, hs, hmirrors⟩
  | ok =>
    have hfull := Client.fullKey_ne_empty (c := c) hdestination
    obtain ⟨hcounted, hlimit⟩ := checkSourceCount_eq_ok_iff.1 hcount
    have hsome : sources ≠ [] := List.length_eq_zero_iff.not.1 hcounted
    obtain ⟨id, s₁, hstart, hs₁⟩ := startUpload_at hs hbucket hfull
    have hjoin := joinParts_at hs₁ hmirrors hsmall hbucket hslash hfull hsources hsome hlimit
    rw [Call.ofExcept_ok, Call.pure_bind, Call.bind_of_ok (fullKey_at hs), Call.bind_of_ok hstart]
    cases hgather : m.gather bucket sources with
    | error error =>
      rw [hgather] at hjoin
      obtain ⟨s₂, hfailed, hs₂⟩ := hjoin
      rw [Call.bind_of_error hfailed]
      exact ⟨rfl, objects, hs₂, hmirrors⟩
    | ok content =>
      rw [hgather] at hjoin
      obtain ⟨pieces, hpieces, hjoined, -⟩ := hjoin
      obtain ⟨s₂, hcomplete, hs₂⟩ := hjoined (hfit hlimit pieces hpieces)
      obtain ⟨s₃, hs₃, hsize⟩ := objectSize_at hs₂ hbucket hdestination
      rw [ObjectMap.get?_insert, if_pos rfl] at hsize
      rw [Call.bind_of_ok hcomplete, Call.bind_of_ok hsize]
      exact ⟨rfl, _, hs₃, hmirrors.insert bucket destination content⟩

/-- A compose of objects that the service does not take as parts fails there, and succeeds on the
map. -/
theorem compose_differs (h : Holds lenient c s m) (hbucket : bucket ≠ "")
    (hslash : '/' ∉ bucket.toList) {sources : List String} {destination : String}
    (hsources : ∀ source ∈ sources, source ≠ "") (hdestination : destination ≠ "")
    (hsmall : Small m) (hunfit : ¬ Fit lenient m (.compose bucket sources destination)) :
    Call.outcome (compose bucket sources destination s) = .error (.failed refusal) ∧
      ∃ object, Call.outcome (ObjectMap.compose bucket sources destination m) = .ok object := by
  obtain ⟨objects, hs, hmirrors⟩ := h
  simp only [Fit, Classical.not_forall] at hunfit
  obtain ⟨hlimit, contents, hcontents, hscant⟩ := hunfit
  have hsome : sources ≠ [] := by
    rintro rfl
    rw [List.map_nil, eq_comm, List.map_eq_nil_iff] at hcontents
    rw [hcontents] at hscant
    exact hscant (.inr nofun)
  have hcount : checkSourceCount sources.length = .ok () :=
    checkSourceCount_eq_ok_iff.2 ⟨List.length_eq_zero_iff.not.2 hsome, hlimit⟩
  have hfull := Client.fullKey_ne_empty (c := c) hdestination
  obtain ⟨id, s₁, hstart, hs₁⟩ := startUpload_at hs hbucket hfull
  have hjoin := joinParts_at hs₁ hmirrors hsmall hbucket hslash hfull hsources hsome hlimit
  have hgather := ObjectMap.gather_eq_ok hcontents
  rw [hgather] at hjoin
  obtain ⟨pieces, hpieces, -, hrefused⟩ := hjoin
  obtain rfl : contents = pieces :=
    (List.map_inj_right fun _ _ => Option.some.inj).1 (hcontents.symm.trans hpieces)
  obtain ⟨s₂, hfailed, -⟩ := hrefused hscant
  constructor
  · rw [compose, hcount, Call.ofExcept_ok, Call.pure_bind, Call.bind_of_ok (fullKey_at hs),
      Call.bind_of_ok hstart, Call.bind_of_error hfailed]
    rfl
  · rw [ObjectMap.compose_eq, hcount, hgather]
    exact ⟨_, rfl⟩

/-- Every request that is fit comes to the same on the service and on the map. -/
theorem request_agree (h : Holds lenient c s m) {request : ChunkedUpload.Request}
    (haddresses : ∀ a ∈ request.addresses, a.1 ≠ "" ∧ '/' ∉ a.1.toList ∧ a.2 ≠ "")
    (hreaders : ∀ contents ∈ request.readers, contents.Steady) (hsmall : Small m)
    (hafter : Small (Call.final (request.run m))) (hfit : Fit lenient m request) :
    Agree (Holds lenient c) (request.run s) (request.run m) := by
  cases request with
  | create bucket key data uncompressed =>
    obtain ⟨hbucket, -, hkey⟩ := haddresses _ (List.mem_singleton_self _)
    exact (put_agree h hbucket hkey data).map Answer.stored
  | createFromReader bucket key contents =>
    obtain ⟨hbucket, -, hkey⟩ := haddresses _ (List.mem_singleton_self _)
    have hsteady := hreaders _ (List.mem_singleton_self _)
    have hsize : contents.content.length ≤ mostCopied := by
      have hrun : ObjectMap.createFromReader bucket key contents m =
          ObjectMap.put bucket key contents.content m := by
        rw [ObjectMap.createFromReader_eq bucket key hsteady]
      have hfinal :
          Call.final ((ChunkedUpload.Request.createFromReader bucket key contents).run m) =
            m.insert (bucket, key) contents.content := by
        show Call.final (EStateM.map Answer.stored
          (ObjectMap.createFromReader bucket key contents) m) = _
        rw [EStateM.map, hrun]
        rfl
      rw [hfinal] at hafter
      exact hafter (bucket, key) _ (by rw [ObjectMap.get?_insert, if_pos rfl])
    exact (createFromReader_agree h hbucket hkey hsteady hsize).map Answer.stored
  | compose bucket sources destination =>
    obtain ⟨hbucket, hslash, hdestination⟩ := haddresses (bucket, destination)
      (List.mem_map_of_mem List.mem_cons_self)
    have hsources : ∀ source ∈ sources, source ≠ "" := fun source hsource =>
      (haddresses (bucket, source)
        (List.mem_map_of_mem (List.mem_cons_of_mem _ hsource))).2.2
    exact (compose_agree h hbucket hslash hsources hdestination hsmall hfit).map Answer.stored
  | delete bucket key =>
    obtain ⟨hbucket, -, hkey⟩ := haddresses _ (List.mem_singleton_self _)
    exact (delete_agree h hbucket hkey).map fun _ => Answer.deleted
  | get bucket key =>
    obtain ⟨hbucket, -, hkey⟩ := haddresses _ (List.mem_singleton_self _)
    exact (read_agree h hbucket hkey).map Answer.content

/-- One that is not fit comes to something else. -/
theorem request_differs (h : Holds lenient c s m) {request : ChunkedUpload.Request}
    (haddresses : ∀ a ∈ request.addresses, a.1 ≠ "" ∧ '/' ∉ a.1.toList ∧ a.2 ≠ "")
    (hsmall : Small m) (hunfit : ¬ Fit lenient m request) :
    Call.outcome (request.run s) ≠ Call.outcome (request.run m) := by
  cases request with
  | compose bucket sources destination =>
    obtain ⟨hbucket, hslash, hdestination⟩ := haddresses (bucket, destination)
      (List.mem_map_of_mem List.mem_cons_self)
    have hsources : ∀ source ∈ sources, source ≠ "" := fun source hsource =>
      (haddresses (bucket, source)
        (List.mem_map_of_mem (List.mem_cons_of_mem _ hsource))).2.2
    obtain ⟨hfailed, object, hmade⟩ :=
      compose_differs h hbucket hslash hsources hdestination hsmall hunfit
    have hservice := Call.outcome_map Answer.stored (compose bucket sources destination) s
    have hmap := Call.outcome_map Answer.stored (ObjectMap.compose bucket sources destination) m
    rw [hfailed] at hservice
    rw [hmade] at hmap
    intro heq
    cases hservice.symm.trans (Eq.trans heq hmap)
  | _ => exact absurd trivial hunfit

end ChunkedUpload.S3.Store
