import Mathlib
import ChunkedUpload.Proofs.S3.Deliveries

/-!
# Objects at a service are written whole or not at all

Whatever requests a service refuses, a call that writes leaves its target as it was or with all of
the new content, and every other object as it was (`written_whole_or_not`). It fails with the new
content in place only if that is a compose that could not learn the length of its object any more.

The text that names a copy source is taken for the bucket up to its first slash. So a copy is of the
source that the call asked the length of if there is no slash in the name of the bucket
(`Copyable.copied?_eq`). Otherwise a compose can put an object of another bucket in place
(`joined_foreign`).
-/

namespace ChunkedUpload.S3

open Call (Ends)

namespace Store

variable {s t : Store} {bucket key : String} {sources : List String} {es : List Exchange}

/-- The service tells the true lengths of the sources, and those that are there are not too large to
be copied whole. -/
structure Copyable (s : Server) (c : Client) (bucket : String) (sources : List String) : Prop where
  told : ∀ source ∈ sources, s.length? (bucket, c.fullKey source) =
    (s.objects.get? (bucket, c.fullKey source)).map List.length
  small : ∀ source ∈ sources, ∀ content,
    s.objects.get? (bucket, c.fullKey source) = some content → content.length ≤ mostCopied

theorem Copyable.of_cons {s : Server} {c : Client} {source : String}
    (h : Copyable s c bucket (source :: sources)) : Copyable s c bucket sources :=
  ⟨fun other hother => h.told other (List.mem_cons_of_mem _ hother),
    fun other hother => h.small other (List.mem_cons_of_mem _ hother)⟩

/-- Sources that are copied are all there. -/
theorem Copies.get?_ne_none {s : Server} {c : Client} {payloads : List Payload}
    (h : Copies s c bucket sources payloads) (hcopyable : Copyable s c bucket sources) :
    ∀ source ∈ sources, s.objects.get? (bucket, c.fullKey source) ≠ none := by
  induction h with
  | nil => nofun
  | cons hlength _ _ ih =>
    refine List.forall_mem_cons.2 ⟨fun hnone => ?_, ih hcopyable.of_cons⟩
    have htold := hcopyable.told _ List.mem_cons_self
    rw [hlength, hnone] at htold
    cases htold

/-- None of them is copied in ranges. -/
theorem Copies.payloads_eq {s : Server} {c : Client} {payloads : List Payload}
    (h : Copies s c bucket sources payloads) (hcopyable : Copyable s c bucket sources) :
    payloads = sources.map fun source => .copy (c.copySource bucket source) none := by
  induction h with
  | nil => rfl
  | @cons source length size sources payloads hlength hsize _ ih =>
    have htold := hcopyable.told source List.mem_cons_self
    obtain ⟨body, hbody, rfl⟩ := Option.map_eq_some_iff.1 (htold.symm.trans hlength)
    have hle : size ≤ mostCopied := by
      have := hcopyable.small source List.mem_cons_self body hbody
      omega
    rw [rangesOf_of_le hle, ih hcopyable.of_cons]
    rfl

/-- In a bucket without a slash, a whole copy of a source holds what the source holds. -/
theorem Copyable.copied?_eq {s : Server} {c : Client} {source : String}
    (h : Copyable s c bucket sources) (hslash : '/' ∉ bucket.toList) (hsource : source ∈ sources) :
    s.copied? (c.copySource bucket source) none = s.objects.get? (bucket, c.fullKey source) := by
  rw [Server.copied?_copySource hslash, Server.content?_of_told (h.told source hsource)]
  exact Option.map_id'

theorem unchanged_of_fruitless {full : String} {fit : List Payload → Prop}
    (h : Fruitless bucket full fit es) (htalk : s.Talks es t) :
    t.server.objects = s.server.objects :=
  (htalk.talk.keeps h.quiet).objects

theorem ends_create_whole (s : Store) (bucket key : String) (data : Bytes) (uncompressed : Bool) :
    Ends (create bucket key data uncompressed) s
      (fun _ t => t.server.objects =
        s.server.objects.insert (bucket, s.client.fullKey key) data)
      (fun _ t => t.server.objects = s.server.objects) := by
  refine (ends_put data).mono ?_ ?_
  · intro _ t htalk
    obtain ⟨u, hanswer, hnil⟩ := Server.Talk.cons_iff.1 htalk.talk
    cases hnil
    exact Server.put_of_answer hanswer
  · rintro _ t ⟨-, hrefused⟩
    have hsaid : ∃ es, s.Talks es t ∧
        Fruitless bucket (s.client.fullKey key) (fun _ => True) es :=
      hrefused.fruitless fun _ => .unwritten
    obtain ⟨es, htalk, hfruitless⟩ := hsaid
    exact unchanged_of_fruitless hfruitless htalk

theorem ends_stream_whole (hissued : s.server.Issued) {contents : Reader}
    (hfinal : contents.Final) :
    Ends (createFromReader bucket key contents) s
      (fun _ t => contents.ending = .done ∧ t.server.objects =
        s.server.objects.insert (bucket, s.client.fullKey key) contents.flow)
      (fun _ t => t.server.objects = s.server.objects) := by
  refine (ends_stream s bucket key hfinal).mono ?_ ?_
  · rintro _ t ⟨es, htalk, ⟨hending, rfl⟩ | huploaded⟩
    · obtain ⟨u, hanswer, hnil⟩ := Server.Talk.cons_iff.1 htalk.talk
      cases hnil
      exact ⟨hending, Server.put_of_answer hanswer⟩
    · obtain ⟨payloads, pieces, ⟨hending, bodies, rfl, -, hslices⟩, hpieces, hobjects⟩ :=
        huploaded.objects htalk.talk hissued
      -- the bodies are what they are for the service, too
      have hbodies : (bodies.map Payload.body).map s.server.yields = bodies.map some := by
        rw [List.map_map]
        rfl
      obtain rfl : bodies = pieces :=
        (List.map_inj_right fun _ _ => Option.some.inj).1 (hbodies.symm.trans hpieces)
      rw [hslices.joined] at hobjects
      exact ⟨hending, hobjects⟩
  · rintro _ t ⟨es, htalk, hfruitless⟩
    exact unchanged_of_fruitless hfruitless htalk

/-- What it comes to when these sources are joined: whole copies of them, one after another. In a
bucket without a slash in its name these are what the sources hold. -/
structure Joins (s : Store) (bucket : String) (sources : List String) (content : Bytes) : Prop where
  there : ∀ source ∈ sources, s.server.objects.get? (bucket, s.client.fullKey source) ≠ none
  copied : ∃ contents : List Bytes, content = contents.flatten ∧
    (sources.map fun source => s.server.copied? (s.client.copySource bucket source) none) =
      contents.map some
  gathered : '/' ∉ bucket.toList →
    s.server.objects.gather bucket (sources.map s.client.fullKey) = .ok content

theorem Copies.joins {payloads : List Payload} {contents : List Bytes}
    (h : Copies s.server s.client bucket sources payloads)
    (hcopyable : Copyable s.server s.client bucket sources)
    (hcontents : payloads.map s.server.yields = contents.map some) :
    s.Joins bucket sources contents.flatten := by
  have hcopied : (sources.map fun source =>
      s.server.copied? (s.client.copySource bucket source) none) = contents.map some := by
    rw [← hcontents, h.payloads_eq hcopyable, List.map_map]
    simp only [Function.comp_def, Server.yields]
  refine ⟨h.get?_ne_none hcopyable, ⟨contents, rfl, hcopied⟩, fun hslash => ?_⟩
  refine ObjectMap.gather_eq_ok ?_
  rw [List.map_map, ← hcopied]
  exact List.map_congr_left fun source hsource => (hcopyable.copied?_eq hslash hsource).symm

/-- The target has what its sources come to, and nothing else has changed. -/
def Joined (s : Store) (bucket : String) (sources : List String) (key : String) (t : Store) :
    Prop :=
  ∃ content, s.Joins bucket sources content ∧
    t.server.objects = s.server.objects.insert (bucket, s.client.fullKey key) content

/-- The last things that were said are that an upload is completed, which was done, and a question
for the length of the new object, which failed. -/
def EndsUntold (s : Store) (bucket key : String) (t : Store) : Prop :=
  ∃ es id parts response, response.Fails ∧
    s.Talks (es ++ [⟨⟨bucket, s.client.fullKey key, .completeUpload id parts⟩, .done⟩,
      ⟨⟨bucket, s.client.fullKey key, .head⟩, response⟩]) t

theorem ends_compose_whole (hissued : s.server.Issued)
    (hcopyable : Copyable s.server s.client bucket sources) :
    Ends (compose bucket sources key) s (fun _ => s.Joined bucket sources key)
      (fun _ t => t.server.objects = s.server.objects ∨
        s.Joined bucket sources key t ∧ s.EndsUntold bucket key t) := by
  -- asking for the length of the new object leaves it alone
  have hjoined : ∀ {es : List Exchange} {response : Response} {t : Store},
      s.Talks (es ++ [⟨headOf s.client bucket key, response⟩]) t →
      Uploaded bucket (s.client.fullKey key) (Copies s.server s.client bucket sources) es →
      s.Joined bucket sources key t := by
    intro es response t htalk huploaded
    obtain ⟨u, htold, hlast⟩ := Server.Talk.append_iff.1 htalk.talk
    have hkeeps := hlast.keeps (List.forall_mem_singleton.2 fun hedits => hedits.elim)
    obtain ⟨payloads, contents, hcopies, hcontents, hobjects⟩ := huploaded.objects htold hissued
    exact ⟨_, hcopies.joins hcopyable hcontents, hkeeps.objects.trans hobjects⟩
  refine (ends_joining s bucket sources key).mono ?_ ?_
  · rintro _ t ⟨es, given, htalk, huploaded⟩
    exact hjoined htalk huploaded
  · rintro _ t (⟨es, htalk, hfruitless⟩ | ⟨es, response, htalk, hfails, huploaded⟩)
    · exact .inl (unchanged_of_fruitless hfruitless htalk)
    · refine .inr ⟨hjoined htalk huploaded, ?_⟩
      obtain ⟨id, carried, payloads, parts, -, -, rfl⟩ := huploaded
      refine ⟨⟨⟨bucket, s.client.fullKey key, .createUpload⟩, .upload (some id)⟩ :: carried, id,
        parts, response, hfails, ?_⟩
      simpa [headOf] using htalk

/-- **Objects are written whole or not at all.** Whatever a service refuses, every object but the
target is as before, and the target is so, too, or has all of the new content: the bytes, the whole
stream, or what the sources come to, which is what they held before if the name of the bucket has no
slash. A call that succeeds has written it. One that does not has left the target alone, unless it
is a compose that was done but for the question how long the new object is. -/
theorem written_whole_or_not (s : Store) (hissued : s.server.Issued) (bucket key : String) :
    (∀ data uncompressed, Ends (ObjectStore.create bucket key data uncompressed) s
      (fun _ t => t.server.objects =
        s.server.objects.insert (bucket, s.client.fullKey key) data)
      (fun _ t => t.server.objects = s.server.objects)) ∧
    (∀ contents : Reader, contents.Final →
      Ends (ObjectStore.createFromReader bucket key contents) s
        (fun _ t => contents.drain.stop = .done ∧ t.server.objects =
          s.server.objects.insert (bucket, s.client.fullKey key) contents.drain.taken)
        (fun _ t => t.server.objects = s.server.objects)) ∧
    ∀ sources, Copyable s.server s.client bucket sources →
      Ends (ObjectStore.compose bucket sources key) s (fun _ => s.Joined bucket sources key)
        (fun _ t => t.server.objects = s.server.objects ∨
          s.Joined bucket sources key t ∧ s.EndsUntold bucket key t) := by
  refine ⟨fun data uncompressed => ends_create_whole s bucket key data uncompressed,
    fun contents hfinal => ?_,
    fun sources hcopyable => ends_compose_whole hissued hcopyable⟩
  rw [Reader.drain_stop, Reader.drain_taken]
  exact ends_stream_whole hissued hfinal

/-- A service with an object in a bucket with a slash in its name. The text that names it as a copy
source is the same as that for an object of another bucket. -/
def ambiguous : Store where
  client := ⟨none, "", ""⟩
  server := { objects := ⟨[(("a/b", "x"), [1]), (("a", "b/x"), [2])]⟩ }

/-- A compose in a bucket with a slash succeeds with what another bucket has. -/
theorem joined_foreign :
    ambiguous.server.Issued ∧ Copyable ambiguous.server ambiguous.client "a/b" ["x"] ∧
      ambiguous.server.objects.gather "a/b" ["x"] = .ok [1] ∧
      ∃ t, ObjectStore.compose "a/b" ["x"] "t" ambiguous = .ok ⟨"a/b", "t", 1⟩ t ∧
        t.server.objects.get? ("a/b", "t") = some [2] := by
  refine ⟨nofun, ⟨by decide, fun source hsource content hget => ?_⟩, rfl,
    Call.final (compose "a/b" ["x"] "t" ambiguous), ?_, ?_⟩
  · rw [List.mem_singleton.1 hsource] at hget
    cases hget
    decide
  · cbv
  · cbv

/-- A lenient service that refuses to tell the third length that it is asked for, with an upload
open. -/
def taciturn : Store where
  client := ⟨some "p", "", ""⟩
  server := {
    objects := ⟨[(("b", "p/x"), [1]), (("b", "p/t"), [2])]⟩
    uploads := [⟨Server.idOf 1, ("b", "p/u"), []⟩]
    issued := 1
    faults := [⟨.head, some 3, none, .status 500⟩]
    lenient := true }

theorem written_whole_or_not_taciturn :
    taciturn.server.Issued ∧ Copyable taciturn.server taciturn.client "b" ["t", "x"] ∧
      Ends (ObjectStore.createFromReader "b" "t"
          (.buffered [.data [3, 4] none, .fail (.custom .other "")])) taciturn
        (fun _ _ => False) (fun _ t => t.server.objects = taciturn.server.objects) ∧
      Ends (ObjectStore.compose "b" ["t", "x"] "t") taciturn
        (fun _ => taciturn.Joined "b" ["t", "x"] "t")
        (fun _ t => t.server.objects = taciturn.server.objects ∨
          taciturn.Joined "b" ["t", "x"] "t" t ∧ taciturn.EndsUntold "b" "t" t) := by
  have hissued : taciturn.server.Issued := by
    intro id hid
    exact ⟨1, Nat.le_refl _, List.mem_singleton.1 hid⟩
  have hcopyable : Copyable taciturn.server taciturn.client "b" ["t", "x"] := by
    refine ⟨by decide, fun source hsource content hget => ?_⟩
    simp only [List.mem_cons, List.not_mem_nil, or_false] at hsource
    rcases hsource with rfl | rfl <;> cases hget <;> decide
  have hfinal : (Reader.buffered [.data [3, 4] none, .fail (.custom .other "")]).Final :=
    Reader.Script.final_of_no_pause (by simp [Reader.buffered])
  obtain ⟨-, hstream, hcompose⟩ := written_whole_or_not taciturn hissued "b" "t"
  refine ⟨hissued, hcopyable, ?_, hcompose _ hcopyable⟩
  refine (hstream _ hfinal).mono ?_ fun _ _ h => h
  rintro _ t ⟨hstop, -⟩
  rw [Reader.drain_stop] at hstop
  cases hstop

/-- The compose fails, and its object is in place. -/
example : (compose "b" ["t", "x"] "t" taciturn matches .error (.failed _) _) = true ∧
    (Call.final (compose "b" ["t", "x"] "t" taciturn)).server.objects.get? ("b", "p/t") =
      some [2, 1] := by
  cbv

end Store

end ChunkedUpload.S3
