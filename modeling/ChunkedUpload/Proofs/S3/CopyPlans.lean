import Mathlib
import ChunkedUpload.Proofs.S3.CopyRanges
import ChunkedUpload.Proofs.S3.Granted

/-!
# The copies that join objects

The lengths that a service tells of some objects decide in which parts they are copied: each object
whole, or in the fewest ranges that tile it (`CopiedIn`), one object after another (`copyPlan`). A
service without faults is asked for just these copies, numbered from 1 on, and then to complete the
upload with them (`compose_copies_exactly`), which it does unless it finds one of them too small
(`Takes`). If there are more than it takes, all that it takes are sent before the upload is dropped.
-/

namespace ChunkedUpload.S3

open Call (Ends)
open CopyRange (Tiles)

namespace Store

/-- How an object of `size` bytes is copied: whole if one copy takes it, otherwise in the fewest
ranges, which tile it. -/
inductive CopiedIn (size : Nat) : List (Option CopyRange) → Prop
  | whole : size ≤ mostCopied → CopiedIn size [none]
  | ranges {pieces : List CopyRange} : mostCopied < size →
      pieces.length = size ⌈/⌉ mostCopied → Tiles mostCopied 0 pieces size →
      CopiedIn size (pieces.map some)

theorem count_eq_ceilDiv {size most : Nat} (hmost : 0 < most) :
    CopyRange.count size most = size ⌈/⌉ most := by
  rw [CopyRange.count, Nat.ceilDiv_eq_add_pred_div, Nat.add_sub_assoc hmost]

theorem copiedIn_rangesOf (size : Nat) : CopiedIn size (rangesOf size) := by
  have hmost : 0 < mostCopied := by decide
  rcases Nat.lt_or_ge mostCopied size with hlarge | hsmall
  · have hpieces := CopyRange.tiles_pieces hmost (Nat.lt_trans hmost hlarge)
    rw [rangesOf_of_lt hlarge, ← Function.comp_def some, ← List.map_map]
    refine .ranges hlarge ?_ hpieces
    rw [List.length_map, List.length_range, count_eq_ceilDiv hmost]
  · rw [rangesOf_of_le hsmall]
    exact .whole hsmall

theorem length_rangesOf (size : Nat) :
    (rangesOf size).length = max 1 (size ⌈/⌉ mostCopied) := by
  have hmost : 0 < mostCopied := by decide
  rcases Nat.lt_or_ge mostCopied size with hlarge | hsmall
  · have htwo := CopyRange.two_le_count hmost hlarge
    rw [rangesOf_of_lt hlarge, List.length_map, List.length_range, count_eq_ceilDiv hmost] at *
    omega
  · have hone : size ⌈/⌉ mostCopied ≤ 1 := by
      rw [ceilDiv_le_iff_le_mul hmost, Nat.mul_one]
      exact hsmall
    rw [rangesOf_of_le hsmall, List.length_singleton]
    omega

/-- The copies that are made of sources with these lengths, one source after another. -/
def copyPlan (c : Client) (bucket : String) (size : String → Nat) (sources : List String) :
    List Payload :=
  sources.flatMap fun source => (rangesOf (size source)).map (.copy (c.copySource bucket source))

theorem length_copyPlan (c : Client) (bucket : String) (size : String → Nat)
    (sources : List String) : (copyPlan c bucket size sources).length =
      (sources.map fun source => max 1 (size source ⌈/⌉ mostCopied)).sum := by
  rw [copyPlan, List.length_flatMap]
  simp only [List.length_map, length_rangesOf]

/-- How many bytes these copies are of. -/
def copyLengths (size : String → Nat) (sources : List String) : List Nat :=
  sources.flatMap fun source => (rangesOf (size source)).map (copyLength (size source))

theorem length_copyLengths (c : Client) (bucket : String) (size : String → Nat)
    (sources : List String) :
    (copyLengths size sources).length = (copyPlan c bucket size sources).length := by
  simp only [copyLengths, copyPlan, List.length_flatMap, List.length_map]

theorem copyLengths_ne_nil {size : String → Nat} {sources : List String} (h : sources ≠ []) :
    copyLengths size sources ≠ [] := by
  obtain ⟨source, others, rfl⟩ := List.exists_cons_of_ne_nil h
  rw [copyLengths, List.flatMap_cons]
  exact List.append_ne_nil_of_left_ne_nil (mt List.map_eq_nil_iff.1 (rangesOf_ne_nil _)) _

/-- The copies are large but for the last one if the sources are. -/
theorem large_copyLengths_iff {size : String → Nat} : ∀ {sources : List String},
    (∀ n ∈ (copyLengths size sources).dropLast, leastPartSize ≤ n) ↔
      ∀ source ∈ sources.dropLast, leastPartSize ≤ size source
  | [] => iff_of_true nofun nofun
  | [source] => by
    refine iff_of_true (fun n hn => ?_) nofun
    rw [copyLengths, List.flatMap_singleton, ← List.map_dropLast] at hn
    obtain ⟨range, hrange, rfl⟩ := List.mem_map.1 hn
    exact le_copyLength_of_mem_dropLast hrange
  | source :: second :: sources => by
    have hmore : copyLengths size (second :: sources) ≠ [] :=
      copyLengths_ne_nil (List.cons_ne_nil _ _)
    have hsplit : copyLengths size (source :: second :: sources) =
        (rangesOf (size source)).map (copyLength (size source)) ++
          copyLengths size (second :: sources) := rfl
    rw [hsplit, List.dropLast_append_of_ne_nil hmore, List.forall_mem_append, List.forall_mem_map,
      forall_copyLength_iff, large_copyLengths_iff,
      List.dropLast_cons_of_ne_nil (List.cons_ne_nil _ _), List.forall_mem_cons]

/-- There are more parts than a service takes. -/
def tooManyParts : StorageError :=
  .tooLarge ("needs more than " ++ mostParts.repr ++ " multipart parts")

theorem checkPartNumber_of_lt {part : Nat} (h : mostParts < part) :
    checkPartNumber part = .error tooManyParts := by
  rw [checkPartNumber, if_pos (Int.ofNat_lt.2 h)]
  rfl

/-! ## What is said while objects are copied -/

variable {bucket full id : String} {heads heads' : List Request} {part : Nat}
  {payloads payloads' : List Payload} {es fs : List Exchange}

/-- Copies are made as the parts from `part` on, and `heads` is what else is asked for between. -/
structure Copying (bucket full id : String) (heads : List Request) (part : Nat)
    (payloads : List Payload) (es : List Exchange) : Prop where
  copies : es.filter (·.request.action.Carries) = partExchanges bucket full id part payloads
  heads : (es.filter (!·.request.action.Carries)).map (·.request) = heads

namespace Copying

theorem append (h : Copying bucket full id heads part payloads es)
    (h' : Copying bucket full id heads' (part + payloads.length) payloads' fs) :
    Copying bucket full id (heads ++ heads') part (payloads ++ payloads') (es ++ fs) := by
  constructor
  · rw [List.filter_append, h.copies, h'.copies, partExchanges_append]
  · rw [List.filter_append, List.map_append, h.heads, h'.heads]

theorem ofParts (part : Nat) (payloads : List Payload) :
    Copying bucket full id [] part payloads (partExchanges bucket full id part payloads) := by
  have hcarry : ∀ e ∈ partExchanges bucket full id part payloads,
      e.request.action.Carries = true := carries_partExchanges payloads
  constructor
  · exact List.filter_eq_self.2 hcarry
  · rw [List.filter_eq_nil_iff.2 fun e he => by simp [hcarry e he]]
    rfl

theorem ofHead (c : Client) (part : Nat) (source : String) (response : Response) :
    Copying bucket full id [headOf c bucket source] part [] [⟨headOf c bucket source, response⟩] :=
  ⟨rfl, rfl⟩

theorem works (h : Copying bucket full id heads part payloads es)
    (hheads : ∀ request ∈ heads, request.action = .head) :
    ∀ e ∈ es, e.request.action.Works := by
  intro e he
  by_cases hcarries : e.request.action.Carries = true
  · exact Action.works_of_carries hcarries
  · have hmem : e.request ∈ heads := by
      rw [← h.heads]
      exact List.mem_map_of_mem (List.mem_filter.2 ⟨he, by simp [hcarries]⟩)
    rw [hheads _ hmem]
    trivial

end Copying

/-! ## The loops -/

variable {c : Client} {size : String → Nat}

/-- The service tells this length of the source and has what its copies are made of. -/
structure Copied (s : Server) (c : Client) (bucket : String) (size : String → Nat)
    (source : String) : Prop where
  key : c.fullKey source ≠ ""
  length : s.length? (bucket, c.fullKey source) = some (size source)
  yields : ∀ range ∈ rangesOf (size source), ∃ body,
    s.yields (.copy (c.copySource bucket source) range) = some body ∧
      body.length = copyLength (size source) range

theorem Copied.of_keeps {s t : Server} {source : String} (h : Copied s c bucket size source)
    (hkeeps : s.Keeps t) : Copied t c bucket size source := by
  refine ⟨h.key, (hkeeps.length?_eq _).trans h.length, fun range hrange => ?_⟩
  rw [hkeeps.yields_eq]
  exact h.yields range hrange

/-- A source whose length is told can be copied. -/
theorem copied_of_told {s : Server} {source : String} (hslash : '/' ∉ bucket.toList)
    (hsource : source ≠ "") (hlength : s.length? (bucket, c.fullKey source) = some (size source)) :
    Copied s c bucket size source := by
  refine ⟨Client.fullKey_ne_empty hsource, hlength, fun range hrange => ?_⟩
  obtain ⟨content, hcontent, hsize⟩ := Server.length_content? hlength
  refine ⟨Server.excerpt range content, ?_, length_excerpt hrange hsize⟩
  rw [Server.yields, Server.copied?_copySource hslash, hcontent]
  rfl

/-- The ranges of one source are copied, up to the last number that a part may have. -/
theorem ends_copyRanges_granted {source : String} {ranges : List (Option CopyRange)} :
    ∀ {part : Nat} {s : Store} {contents : List Bytes}, s.client = c →
    s.Carrying bucket full id contents → part = contents.length + 1 → part ≤ mostParts + 1 →
    Copied s.server c bucket size source → ranges ⊆ rangesOf (size source) →
    ∀ {copies : List Payload}, copies = ranges.map (.copy (c.copySource bucket source)) →
    Ends (copyRanges bucket full id source ranges part) s
      (fun parts t => part + copies.length ≤ mostParts + 1 ∧
        parts = partTags id part copies.length ∧
        (∃ more, t.Carrying bucket full id (contents ++ more) ∧
          more.map List.length = ranges.map (copyLength (size source))) ∧
        s.Talks (partExchanges bucket full id part copies) t)
      (fun halt t => mostParts + 1 < part + copies.length ∧ halt = .failed tooManyParts ∧
        s.Talks (partExchanges bucket full id part (copies.take (mostParts + 1 - part))) t) := by
  induction ranges with
  | nil =>
    rintro part s contents - h - hpart - - _ rfl
    exact Ends.pure ⟨hpart, rfl, ⟨[], by rwa [List.append_nil], rfl⟩, .nil s⟩
  | cons range ranges ih =>
    rintro part s contents rfl h hnext hpart hsource hranges _ rfl
    rw [List.map_cons, List.length_cons]
    rcases Nat.lt_or_eq_of_le hpart with hless | rfl
    · have hnumber : checkPartNumber part = .ok () :=
        checkPartNumber_eq_ok_iff.2 (Int.ofNat_le.2 (Nat.le_of_lt_succ hless))
      have hrange := hranges List.mem_cons_self
      obtain ⟨body, hyields, hlength⟩ := hsource.yields range hrange
      rw [copyRanges, hnumber, Call.ofExcept_ok, Call.pure_bind]
      refine (h.ends_copyPart hnext hyields (hlength ▸ copyLength_le hrange)).andThen
        (fun _ _ hbad => hbad.elim) ?_
      rintro _ t ⟨rfl, htalk, ht⟩
      have hkeeps := htalk.talk.keeps fun e he => Exchange.quiet_of_works
        (Action.works_of_carries (carries_partExchanges _ e he))
      have hafter : part + 1 = (contents ++ [body]).length + 1 := by
        rw [List.length_append, List.length_singleton, hnext]
      obtain ⟨left, hleft⟩ : ∃ left, mostParts + 1 - part = left + 1 :=
        ⟨mostParts - part, by omega⟩
      refine (ih htalk.client ht hafter hless (hsource.of_keeps hkeeps)
        (List.subset_of_cons_subset hranges) rfl).andThen ?_ ?_
      · rintro _ u ⟨hmany, rfl, htalk'⟩
        refine ⟨by omega, rfl, ?_⟩
        rw [hleft, List.take_succ_cons, partExchanges_cons]
        rw [show mostParts + 1 - (part + 1) = left by omega] at htalk'
        exact htalk.append htalk'
      · rintro _ u ⟨hfew, rfl, ⟨more, hu, hlengths⟩, htalk'⟩
        rw [List.append_assoc] at hu
        refine Ends.pure ⟨by omega, rfl, ⟨body :: more, hu, ?_⟩, ?_⟩
        · rw [List.map_cons, List.map_cons, hlength, hlengths]
        · rw [partExchanges_cons]
          exact htalk.append htalk'
    · rw [copyRanges, checkPartNumber_of_lt (Nat.lt_succ_self mostParts)]
      refine Ends.fail ⟨by omega, rfl, ?_⟩
      rw [Nat.sub_self]
      exact .nil s

/-- The sources are copied as planned, up to the last number that a part may have. -/
theorem ends_copyParts_granted {sources : List String} : ∀ {part : Nat} {s : Store}
    {contents : List Bytes}, s.client = c → s.Carrying bucket full id contents →
    part = contents.length + 1 → part ≤ mostParts + 1 →
    (∀ source ∈ sources, Copied s.server c bucket size source) →
    ∀ {plan : List Payload}, plan = copyPlan c bucket size sources →
    Ends (copyParts bucket full id sources part) s
      (fun parts t => part + plan.length ≤ mostParts + 1 ∧
        parts = partTags id part plan.length ∧
        (∃ more, t.Carrying bucket full id (contents ++ more) ∧
          more.map List.length = copyLengths size sources) ∧
        ∃ es, s.Talks es t ∧ Copying bucket full id (sources.map (headOf c bucket)) part plan es)
      (fun halt t => mostParts + 1 < part + plan.length ∧ halt = .failed tooManyParts ∧
        ∃ es heads, s.Talks es t ∧ heads <+: sources.map (headOf c bucket) ∧
        Copying bucket full id heads part (plan.take (mostParts + 1 - part)) es) := by
  induction sources with
  | nil =>
    rintro part s contents - h - hpart - _ rfl
    exact Ends.pure ⟨hpart, rfl, ⟨[], by rwa [List.append_nil], rfl⟩, [], .nil s, rfl, rfl⟩
  | cons source sources ih =>
    rintro part s contents rfl h hnext hpart hsources plan hplan
    obtain ⟨hsource, hsources⟩ := List.forall_mem_cons.1 hsources
    refine (h.ends_objectSize hsource.key hsource.length).andThen (fun _ _ hbad => hbad.elim) ?_
    rintro _ t ⟨rfl, htalk, ht⟩
    have hkeeps : s.server.Keeps t.server :=
      htalk.talk.keeps (List.forall_mem_singleton.2 fun hedits => hedits.elim)
    have hhead : Copying bucket full id [headOf s.client bucket source] part [] _ :=
      .ofHead s.client part source (.length (some (size source)))
    obtain ⟨copies, hcopies⟩ : ∃ copies, copies =
        (rangesOf (size source)).map (Payload.copy (s.client.copySource bucket source)) := ⟨_, rfl⟩
    have hlength : (rangesOf (size source)).length = copies.length := by
      rw [hcopies, List.length_map]
    obtain rfl : plan = copies ++ copyPlan s.client bucket size sources := by
      rw [hplan, hcopies]
      rfl
    rw [List.length_append]
    refine (ends_copyRanges_granted htalk.client ht hnext hpart (hsource.of_keeps hkeeps)
      (List.Subset.refl _) hcopies).andThen ?_ ?_
    · rintro _ u ⟨hmany, rfl, htalk'⟩
      refine ⟨by omega, rfl, _, _, htalk.append htalk',
        (List.prefix_cons_inj _).2 List.nil_prefix, ?_⟩
      rw [List.take_append_of_le_length (by omega)]
      exact hhead.append (.ofParts part _)
    · rintro _ u ⟨hfew, rfl, ⟨more, hu, hlengths⟩, htalk'⟩
      have htold := htalk.append htalk'
      have hsaid := hhead.append (.ofParts part copies)
      have hworks := hsaid.works (List.forall_mem_singleton.2 rfl)
      have hkeeps' := htold.talk.keeps fun e he => Exchange.quiet_of_works (hworks e he)
      have hafter : part + copies.length = (contents ++ more).length + 1 := by
        have hcount := congrArg List.length hlengths
        rw [List.length_map, List.length_map, hlength] at hcount
        rw [List.length_append, hcount, hnext, Nat.add_right_comm]
      rw [hlength]
      refine (ih htold.client hu hafter hfew
        (fun other hother => (hsources other hother).of_keeps hkeeps') rfl).andThen ?_ ?_
      · rintro _ v ⟨hmany, rfl, es, heads, htalk'', hheads, hcopying⟩
        refine ⟨by omega, rfl, _, _, htold.append htalk'',
          (List.prefix_cons_inj (headOf s.client bucket source)).2 hheads, ?_⟩
        rw [List.take_append, List.take_of_length_le (by omega), Nat.sub_sub]
        exact hsaid.append hcopying
      · rintro _ v ⟨hfew', rfl, ⟨more', hv, hlengths'⟩, es, htalk'', hcopying⟩
        rw [List.append_assoc] at hv
        refine Ends.pure ⟨by omega, ?_, ⟨more ++ more', hv, ?_⟩, _, htold.append htalk'',
          hsaid.append hcopying⟩
        · rw [partTags_append]
        · rw [List.map_append, hlengths, hlengths']
          rfl

/-! ## The call -/

variable {s t : Store} {destination : String} {sources : List String}

/-- What is asked for between the opening of an upload and its end: the copies that `plan` has room
for, and lengths of sources. -/
structure Asked (c : Client) (bucket full id : String) (sources : List String)
    (plan : List Payload) (asked : List Request) : Prop where
  copies : asked.filter (·.action.Carries) = partRequests bucket full id 1 (plan.take mostParts)
  heads : asked.filter (!·.action.Carries) <+: sources.map (headOf c bucket)

theorem Copying.asked {plan : List Payload} (h : Copying bucket full id heads 1
    (plan.take mostParts) es) (hheads : heads <+: sources.map (headOf c bucket)) :
    Asked c bucket full id sources plan (es.map (·.request)) := by
  constructor
  · rw [← request_partExchanges, ← h.copies, List.filter_map]
    rfl
  · rw [← h.heads] at hheads
    rw [List.filter_map]
    exact hheads

/-- A service takes the copies of these sources: all but the last are large enough for a part that
others follow, or the service is lenient. -/
def Takes (s : Server) (size : String → Nat) (sources : List String) : Prop :=
  s.lenient = true ∨ ∀ source ∈ sources.dropLast, leastPartSize ≤ size source

/-- The request to complete the upload of `plan`. -/
def completing (bucket full id : String) (plan : List Payload) : Request :=
  ⟨bucket, full, .completeUpload id (partTags id 1 plan.length)⟩

/-- Why the upload of `plan` is dropped, and what was said last before that. -/
inductive Unfit (bucket full id : String) (plan : List Payload) (takes : Prop) :
    Halt → List Exchange → Prop
  | tooMany : mostParts < plan.length →
      Unfit bucket full id plan takes (.failed tooManyParts) []
  | refused : plan.length ≤ mostParts → ¬ takes →
      Unfit bucket full id plan takes (.failed refusal)
        [⟨completing bucket full id plan, .status 400⟩]

/-- The copies are made and completed, if there are not too many and the service takes them. -/
theorem ends_completed_granted {plan : List Payload} (hplan : plan = copyPlan s.client bucket size
      sources) (h : s.Carrying bucket full id []) (hsome : sources ≠ [])
    (hsources : ∀ source ∈ sources, Copied s.server s.client bucket size source) :
    Ends (copyParts bucket full id sources 1 >>= completeUpload bucket full id) s
      (fun _ t => plan.length ≤ mostParts ∧ Takes s.server size sources ∧ t.server.faults = [] ∧
        (∃ length, t.server.length? (bucket, full) = some length) ∧
        ∃ es, s.Talks (es ++ [⟨completing bucket full id plan, .done⟩]) t ∧
        Asked s.client bucket full id sources plan (es.map (·.request)))
      (fun halt t => ∃ es last, s.Talks (es ++ last) t ∧
        Asked s.client bucket full id sources plan (es.map (·.request)) ∧
        Unfit bucket full id plan (Takes s.server size sources) halt last) := by
  have hfirst : 1 ≤ mostParts + 1 := by decide
  have hnext : 1 = ([] : List Bytes).length + 1 := rfl
  refine (ends_copyParts_granted rfl h hnext hfirst hsources hplan).andThen ?_ ?_
  · rintro _ t ⟨hmany, rfl, es, heads, htalk, hheads, hcopying⟩
    rw [Nat.add_sub_cancel] at hcopying
    exact ⟨es, [], by rwa [List.append_nil], hcopying.asked hheads, .tooMany (by omega)⟩
  · rintro _ t ⟨hfew, rfl, ⟨contents, ht, hlengths⟩, es, htalk, hcopying⟩
    rw [List.nil_append] at ht
    have hall : plan.take mostParts = plan := List.take_of_length_le (by omega)
    have hasked : Asked s.client bucket full id sources plan (es.map (·.request)) := by
      rw [← hall] at hcopying
      exact hcopying.asked (List.prefix_refl _)
    have hcount : plan.length = contents.length := by
      rw [hplan, ← length_copyLengths, ← hlengths, List.length_map]
    have hample : Takes s.server size sources ↔ Ample t.server.lenient contents := by
      have hworks := hcopying.works (by simp [headOf])
      have hkeeps := htalk.talk.keeps fun e he => Exchange.quiet_of_works (hworks e he)
      rw [Takes, Ample, hkeeps.lenient, ← large_copyLengths_iff, ← hlengths, ← List.map_dropLast,
        List.forall_mem_map]
    by_cases htakes : Takes s.server size sources
    · have hnonempty : contents ≠ [] := by
        rintro rfl
        exact copyLengths_ne_nil hsome hlengths.symm
      have hends := ht.ends_completeUpload hnonempty (by omega) (hample.1 htakes)
      rw [← hcount] at hends
      refine hends.mono ?_ fun _ _ hbad => hbad.elim
      rintro _ u ⟨htalk', hobjects⟩
      refine ⟨by omega, htakes, htalk'.faultless ht.faultless, ?_, es, htalk.append htalk',
        hasked⟩
      rw [Server.length?, hobjects, ObjectMap.get?_insert, if_pos rfl]
      cases u.server.reported.lookup (bucket, full) with
      | none => exact ⟨_, rfl⟩
      | some length => exact ⟨length, rfl⟩
    · have hends := ht.ends_completeUpload_refused (mt hample.2 htakes)
      rw [← hcount] at hends
      refine hends.mono (fun _ _ hbad => hbad.elim) ?_
      rintro _ u ⟨rfl, htalk', -⟩
      exact ⟨es, _, htalk.append htalk', hasked, .refused (by omega) htakes⟩

/-- Otherwise the upload is dropped. -/
theorem ends_joinParts_granted {plan : List Payload} (hplan : plan = copyPlan s.client bucket size
      sources) (h : s.Carrying bucket full id []) (hsome : sources ≠ [])
    (hsources : ∀ source ∈ sources, Copied s.server s.client bucket size source) :
    Ends (Call.onFailure (abortUpload bucket full id)
        (copyParts bucket full id sources 1 >>= completeUpload bucket full id)) s
      (fun _ t => plan.length ≤ mostParts ∧ Takes s.server size sources ∧ t.server.faults = [] ∧
        (∃ length, t.server.length? (bucket, full) = some length) ∧
        ∃ es, s.Talks (es ++ [⟨completing bucket full id plan, .done⟩]) t ∧
        Asked s.client bucket full id sources plan (es.map (·.request)))
      (fun halt t => ∃ es last response,
        s.Talks (es ++ (last ++ [⟨⟨bucket, full, .abortUpload id⟩, response⟩])) t ∧
        Asked s.client bucket full id sources plan (es.map (·.request)) ∧
        Unfit bucket full id plan (Takes s.server size sources) halt last) := by
  refine Ends.onFailure (ends_completed_granted hplan h hsome hsources) ?_ ?_
  · rintro _ t ⟨es, last, htalk, hasked, hunfit⟩
    obtain ⟨response, htalk'⟩ := abortUpload_talks id (h.reaches.of_talks htalk)
    refine ⟨es, last, response, ?_, hasked, hunfit⟩
    rw [← List.append_assoc]
    exact htalk.append htalk'
  · rintro t ⟨es, last, -, -, hunfit⟩
    cases hunfit

/-- A compose of sources with these lengths at a service without faults. -/
theorem ends_compose_granted (hreaches : s.Reaches bucket (s.client.fullKey destination))
    (hsound : s.server.Sound) (hsome : sources ≠ []) (hcount : sources.length ≤ composeLimit)
    (hsources : ∀ source ∈ sources, Copied s.server s.client bucket size source) :
    let full := s.client.fullKey destination
    let id := Server.idOf (s.server.issued + 1)
    let plan := copyPlan s.client bucket size sources
    Ends (compose bucket sources destination) s
      (fun object t => plan.length ≤ mostParts ∧ Takes s.server size sources ∧
        (∃ length, object = ⟨bucket, destination, length⟩) ∧
        ∃ asked, Asked s.client bucket full id sources plan asked ∧
          t.server.log = s.server.log ++ ⟨bucket, full, .createUpload⟩ :: (asked ++
            [completing bucket full id plan, headOf s.client bucket destination]))
      (fun halt t => ∃ asked last, Asked s.client bucket full id sources plan asked ∧
        t.server.log = s.server.log ++ ⟨bucket, full, .createUpload⟩ ::
          (asked ++ (last.map (·.request) ++ [⟨bucket, full, .abortUpload id⟩])) ∧
        Unfit bucket full id plan (Takes s.server size sources) halt last) := by
  intro full id plan
  refine Ends.ofExcept_bind (fun _ _ => ?_) fun error herror => ?_
  · refine ends_fullKey_bind ((ends_startUpload_granted hreaches hsound).andThen
      (fun _ _ hbad => hbad.elim) ?_)
    rintro _ t ⟨rfl, htalk, ht⟩
    have hkeeps : s.server.Keeps t.server :=
      htalk.talk.keeps (List.forall_mem_singleton.2 fun hedits => hedits.elim)
    have htakes : Takes t.server size sources ↔ Takes s.server size sources := by
      rw [Takes, hkeeps.lenient, Takes]
    have hjoin := ends_joinParts_granted (rfl : copyPlan t.client bucket size sources = _) ht hsome
    rw [htalk.client, htakes] at hjoin
    refine (hjoin fun source hsource => (hsources source hsource).of_keeps hkeeps).andThen ?_ ?_
    · rintro _ u ⟨es, last, response, htalk', hasked, hunfit⟩
      refine ⟨es.map (·.request), last, hasked, ?_, hunfit⟩
      rw [(htalk.append htalk').talk.log, List.map_append, List.map_append, List.map_append]
      rfl
    · rintro _ u ⟨hfew, hlarge, hfaults, ⟨length, hlength⟩, es, htalk', hasked⟩
      have htold := htalk.append htalk'
      have hreaches' : u.Reaches bucket (u.client.fullKey destination) := by
        rw [htold.client]
        exact hreaches.of_talks htold
      have hlength' : u.server.length? (bucket, u.client.fullKey destination) = some length := by
        rw [htold.client]
        exact hlength
      refine (ends_objectSize_granted hreaches' hfaults hlength').andThen
        (fun _ _ hbad => hbad.elim) ?_
      rintro _ v ⟨rfl, htalk''⟩
      refine Ends.pure ⟨hfew, hlarge, ⟨_, rfl⟩, es.map (·.request), hasked, ?_⟩
      rw [(htold.append htalk'').talk.log, htold.client]
      simp only [List.map_append, List.map_cons, List.map_nil, List.append_assoc,
        List.cons_append, List.nil_append]
      rfl
  · have hallowed : ¬ (sources.length = 0 ∨ composeLimit < sources.length) := by
      rw [List.length_eq_zero_iff]
      exact fun hbad => hbad.elim hsome (Nat.not_lt.2 hcount)
    rw [checkSourceCount, if_neg hallowed] at herror
    cases herror

/-- **A compose makes just the copies that it needs.** Let a service without faults tell the lengths
of the sources, whatever these are, in a bucket without a slash in its name. An object that one copy
takes is copied whole, and a larger one in the fewest ranges, which are consecutive and tile it;
each copy names the object it is of. The copies of one source after another are the parts of the
upload, numbered from 1. If ten thousand are enough then all are sent, and the service is asked to
complete the upload with them in that order. It does so if it takes parts of these lengths, and
otherwise the upload is dropped. If ten thousand are not enough then that many are sent, and the
upload is dropped. -/
theorem compose_copies_exactly (hsound : s.server.Sound) (hreachable : s.reachable = true)
    (hbucket : bucket ≠ "") (hslash : '/' ∉ bucket.toList) (hdestination : destination ≠ "")
    (hsome : sources ≠ []) (hcount : sources.length ≤ composeLimit)
    (hsources : ∀ source ∈ sources, source ≠ "" ∧
      s.server.length? (bucket, s.client.fullKey source) = some (size source)) :
    let full := s.client.fullKey destination
    let id := Server.idOf (s.server.issued + 1)
    let plan := copyPlan s.client bucket size sources
    let completing : Request := ⟨bucket, full, .completeUpload id (partTags id 1 plan.length)⟩
    (∀ source ∈ sources, CopiedIn (size source) (rangesOf (size source)) ∧
      Server.sourceAddress? (s.client.copySource bucket source) =
        some (bucket, s.client.fullKey source)) ∧
    plan.length = (sources.map fun source => max 1 (size source ⌈/⌉ mostCopied)).sum ∧
    ∃ asked t, Asked s.client bucket full id sources plan asked ∧
      (plan.length ≤ mostParts → Takes s.server size sources → ∃ length,
        ObjectStore.compose bucket sources destination s = .ok ⟨bucket, destination, length⟩ t ∧
        t.server.log = s.server.log ++ ⟨bucket, full, .createUpload⟩ :: (asked ++
          [completing, headOf s.client bucket destination])) ∧
      (plan.length ≤ mostParts → ¬ Takes s.server size sources →
        ObjectStore.compose bucket sources destination s = .error (.failed refusal) t ∧
        t.server.log = s.server.log ++ ⟨bucket, full, .createUpload⟩ :: (asked ++
          [completing, ⟨bucket, full, .abortUpload id⟩])) ∧
      (mostParts < plan.length →
        ObjectStore.compose bucket sources destination s = .error (.failed tooManyParts) t ∧
        t.server.log = s.server.log ++ ⟨bucket, full, .createUpload⟩ :: (asked ++
          [⟨bucket, full, .abortUpload id⟩])) := by
  intro full id plan completing
  have hreaches : s.Reaches bucket full :=
    ⟨hbucket, Client.fullKey_ne_empty hdestination, hreachable⟩
  have hcopied : ∀ source ∈ sources, Copied s.server s.client bucket size source :=
    fun source hsource => copied_of_told hslash (hsources source hsource).1
      (hsources source hsource).2
  refine ⟨fun source _ => ⟨copiedIn_rangesOf _, sourceAddress?_header hslash _⟩,
    length_copyPlan _ _ _ _, ?_⟩
  have hcompose := ends_compose_granted hreaches hsound hsome hcount hcopied
  unfold Ends at hcompose
  show ∃ asked t, Asked s.client bucket full id sources plan asked ∧
    (_ → _ → ∃ length, compose bucket sources destination s = _ ∧ _) ∧
    (_ → _ → compose bucket sources destination s = _ ∧ _) ∧
    (_ → compose bucket sources destination s = _ ∧ _)
  cases hrun : compose bucket sources destination s with
  | ok object t =>
    rw [hrun] at hcompose
    obtain ⟨hfew, htakes, ⟨length, rfl⟩, asked, hasked, hlog⟩ := hcompose
    exact ⟨asked, t, hasked, fun _ _ => ⟨length, rfl, hlog⟩, fun _ hsmall => absurd htakes hsmall,
      fun hmany => absurd hfew (Nat.not_le.2 hmany)⟩
  | error halt t =>
    rw [hrun] at hcompose
    obtain ⟨asked, last, hasked, hlog, hunfit⟩ := hcompose
    cases hunfit with
    | tooMany hmany =>
      exact ⟨asked, t, hasked, fun hfew => absurd hfew (Nat.not_le.2 hmany),
        fun hfew => absurd hfew (Nat.not_le.2 hmany), fun _ => ⟨rfl, hlog⟩⟩
    | refused hfew hsmall =>
      exact ⟨asked, t, hasked, fun _ htakes => absurd htakes hsmall, fun _ _ => ⟨rfl, hlog⟩,
        fun hmany => absurd hfew (Nat.not_le.2 hmany)⟩

/-- A service with an object of three bytes, which also tells of one that takes three copies. -/
def laden : Store where
  client := ⟨some "p", "", ""⟩
  server := {
    objects := ⟨[(("b", "p/small"), [1, 2, 3])]⟩
    reported := [(("b", "p/large"), 2 * mostCopied + 1)] }

theorem compose_copies_exactly_laden :
    let size := fun source => if source = "large" then 2 * mostCopied + 1 else 3
    let plan := copyPlan laden.client "b" size ["large", "small"]
    laden.server.Sound ∧ plan.length = 4 ∧ ∃ asked length t,
      Asked laden.client "b" "p/k" (Server.idOf 1) ["large", "small"] plan asked ∧
      ObjectStore.compose "b" ["large", "small"] "k" laden = .ok ⟨"b", "k", length⟩ t ∧
      t.server.log = ⟨"b", "p/k", .createUpload⟩ :: (asked ++
        [⟨"b", "p/k", .completeUpload (Server.idOf 1) (partTags (Server.idOf 1) 1 plan.length)⟩,
          headOf laden.client "b" "k"]) := by
  intro size plan
  have hsound : laden.server.Sound := ⟨rfl, nofun⟩
  have hsources : ∀ source ∈ ["large", "small"], source ≠ "" ∧
      laden.server.length? ("b", laden.client.fullKey source) = some (size source) := by
    decide
  obtain ⟨-, hlength, asked, t, hasked, hmade, -⟩ := compose_copies_exactly hsound rfl
    (by decide) (show '/' ∉ "b".toList by decide) (show "k" ≠ "" by decide) (by decide) (by decide)
    hsources
  have hfour : plan.length = 4 := hlength.trans (by decide)
  have htakes : Takes laden.server size ["large", "small"] := .inr (by decide)
  obtain ⟨length, hrun, hlog⟩ := hmade (hfour ▸ by decide) htakes
  exact ⟨hsound, hfour, asked, length, t, hasked, hrun, hlog⟩

/-- A service with small objects, one of them in a bucket with a slash in its name. -/
def modest : Store where
  client := ⟨none, "", ""⟩
  server := { objects := ⟨[(("a/b", "x"), [1]), (("b", "x"), [1]), (("b", "y"), [2])]⟩ }

/-- A bucket with a slash is not found when one of its objects is to be copied, and an object of one
byte makes too small a part before another one. -/
theorem compose_not_completed :
    modest.server.Sound ∧
      modest.server.length? ("a/b", "x") = some 1 ∧ modest.server.length? ("b", "x") = some 1 ∧
      modest.server.length? ("b", "y") = some 1 ∧
      (∃ t, ObjectStore.compose "a/b" ["x"] "k" modest = .error (.failed (.notFound "x")) t ∧
        t.server.log.map (·.action.operation) = [.createUpload, .head, .copyPart, .abortUpload]) ∧
      ∃ t, ObjectStore.compose "b" ["x", "y"] "k" modest = .error (.failed refusal) t ∧
        t.server.objects.get? ("b", "k") = none := by
  refine ⟨⟨rfl, nofun⟩, by decide, by decide, by decide,
    ⟨Call.final (compose "a/b" ["x"] "k" modest), ?_, ?_⟩,
    Call.final (compose "b" ["x", "y"] "k" modest), ?_, ?_⟩ <;> cbv

end Store

end ChunkedUpload.S3
