import ChunkedUpload.Proofs.Reader.OneRead
import ChunkedUpload.Reader.Buffer
import ChunkedUpload.Reader.Drain

/-!
# What a steady stream delivers

A stream is `Steady` if no read of it ever fails or waits for ever and a read of no bytes is final.
`Delivers s D` says that reads of any sizes, up to one of no bytes, hand out `D`. For a steady
stream there is just one such `D`, `Script.content` (`Steady.delivers_iff`), and reading never
loses, repeats or reorders a byte of it:

* one read of a reader takes a front of its content (`Steady.read`), whatever was read ahead;
* `fill` takes exactly as much as it wants (`Steady.fill`), `refill` shows nothing of an earlier
  filling (`Steady.refill`), `drain` takes everything (`Steady.drain`);
* `peek` takes nothing and tells whether anything is left (`Steady.peek`).
-/

namespace ChunkedUpload.Reader

/-! ## Streams -/

namespace Script

/-- `Later s t`: reads with room for at least one byte can lead from `s` to `t`. -/
inductive Later : Script → Script → Prop
  | here (s : Script) : Later s s
  | read {s t : Script} {space : Nat} : 0 < space → Later (s.read space).2 t → Later s t

/-- No read fails or stalls, and after a read of no bytes every read answers none. -/
structure Steady (s : Script) : Prop where
  answers : ∀ {t : Script}, Later s t → ∀ {space : Nat}, 0 < space →
    ∃ got, (t.read space).1 = .bytes got
  final : ∀ {t u : Script} {space more : Nat}, Later s t → 0 < space →
    (t.read space).1 = .bytes [] → Later (t.read space).2 u → 0 < more →
    (u.read more).1 = .bytes []

/-- Reads with room for at least one byte, up to the first that answers none, hand out the bytes. -/
inductive Delivers : Script → Bytes → Prop
  | done {s rest : Script} {space : Nat} : 0 < space → s.read space = (.bytes [], rest) →
      Delivers s []
  | more {s rest : Script} {space : Nat} {got bytes : Bytes} : 0 < space → got ≠ [] →
      s.read space = (.bytes got, rest) → Delivers rest bytes → Delivers s (got ++ bytes)

/-- The bytes up to the first read that does not hand out any. -/
def content : Script → Bytes
  | [] => []
  | .data [] _ :: later => content later
  | .data (_ :: _) (some 0) :: _ => []
  | .data (b :: bs) _ :: later => (b :: bs) ++ content later
  | .notReady :: later => content later
  | _ :: _ => []

/-- A read that hands out bytes takes them from the front of the content. -/
theorem content_of_read {space : Nat} {s rest : Script} {got : Bytes} (hgot : got ≠ [])
    (h : s.read space = (.bytes got, rest)) : got ++ content rest = content s := by
  fun_induction read space s with
  | case1 => cases h; exact absurd rfl hgot
  | case2 _ _ ih => rw [content]; exact ih h
  | case3 b bs most later count =>
    cases h
    have hm : most ≠ some 0 := by
      rintro rfl
      simp [count, allowed] at hgot
    have hc (cs : Bytes) : content (.data cs most :: later) = cs ++ content later := by
      cases cs with
      | nil => rfl
      | cons c cs =>
        rcases most with _ | _ | n
        · rfl
        · exact absurd rfl hm
        · rfl
    rw [hc, hc, ← List.append_assoc, List.take_append_drop]
  | case4 => cases h
  | case5 => cases h
  | case6 => cases h; exact absurd rfl hgot
  | case7 _ ih => rw [content]; exact ih h
  | case8 => cases h

/-- Where a read hands out nothing, there is no content. -/
theorem content_of_read_nil {space : Nat} {s rest : Script} (hspace : 0 < space)
    (h : s.read space = (.bytes [], rest)) : content s = [] := by
  fun_induction read space s with
  | case1 => rfl
  | case2 _ _ ih => rw [content]; exact ih h
  | case3 b bs most later count =>
    simp only [Prod.mk.injEq, Reading.bytes.injEq, List.take_eq_nil_iff, reduceCtorEq,
      or_false] at h
    have hzero : allowed space most = 0 := h.1
    rcases most with _ | _ | n
    · exact absurd hzero (Nat.ne_of_gt hspace)
    · rfl
    · simp only [allowed] at hzero
      omega
  | case4 => cases h
  | case5 => cases h
  | case6 => rfl
  | case7 _ ih => rw [content]; exact ih h
  | case8 => cases h

/-- Where no read hands out anything, there is no content. -/
theorem content_eq_nil {s : Script}
    (h : ∀ {space : Nat}, 0 < space → (s.read space).1 = .bytes []) : content s = [] :=
  @content_of_read_nil 1 s (s.read 1).2 Nat.one_pos (Prod.ext (h Nat.one_pos) rfl)

namespace Steady

variable {s : Script}

theorem rest (h : s.Steady) {space : Nat} (hspace : 0 < space) : (s.read space).2.Steady :=
  ⟨fun ht => h.answers (.read hspace ht), fun ht => h.final (.read hspace ht)⟩

/-- One read of a steady stream. -/
theorem read (h : s.Steady) {space : Nat} (hspace : 0 < space) :
    ∃ got rest, s.read space = (.bytes got, rest) ∧ rest.Steady ∧
      got ++ content rest = content s ∧ got.length ≤ space ∧ (got = [] → content s = []) := by
  obtain ⟨got, hgot⟩ := h.answers (.here s) hspace
  have hr : s.read space = (.bytes got, (s.read space).2) := Prod.ext hgot rfl
  refine ⟨got, _, hr, h.rest hspace, ?_, length_le_of_read hr, ?_⟩
  · by_cases hnil : got = []
    · subst hnil
      have hrest : content (s.read space).2 = [] :=
        content_eq_nil fun hmore => h.final (.here s) hspace hgot (.here _) hmore
      rw [List.nil_append, hrest, content_of_read_nil hspace hr]
    · exact content_of_read hnil hr
  · rintro rfl
    exact content_of_read_nil hspace hr

end Steady

/-- A step that hands out bytes, at least one a read, or takes its time. -/
def Flows : Step → Prop
  | .data _ most => most ≠ some 0
  | .notReady => True
  | _ => False

theorem read_of_flows {s : Script} {space : Nat} (h : ∀ step ∈ s, Flows step)
    (hspace : 0 < space) : ∃ got rest, s.read space = (.bytes got, rest) ∧
      (∀ step ∈ rest, Flows step) ∧ (got = [] → rest = []) := by
  fun_induction read space s with
  | case1 => exact ⟨[], [], rfl, fun _ hstep => absurd hstep List.not_mem_nil, fun _ => rfl⟩
  | case2 _ _ ih | case7 _ ih => exact ih fun step hstep => h step (List.mem_cons_of_mem _ hstep)
  | case3 b bs most later count =>
    have hmost : most ≠ some 0 := h _ List.mem_cons_self
    refine ⟨_, _, rfl, fun step hstep => ?_, fun hnil => ?_⟩
    · rcases List.mem_cons.1 hstep with rfl | hstep
      · exact hmost
      · exact h step (List.mem_cons_of_mem _ hstep)
    · exact absurd hnil (take_ne_nil (allowed_pos hspace hmost) (List.cons_ne_nil b bs))
  | case4 | case5 | case6 | case8 => exact (h _ List.mem_cons_self).elim

theorem Later.flows {s t : Script} (hlater : Later s t) (h : ∀ step ∈ s, Flows step) :
    ∀ step ∈ t, Flows step := by
  induction hlater with
  | here => exact h
  | read hspace _ ih =>
    obtain ⟨got, rest, hr, hrest, -⟩ := read_of_flows h hspace
    rw [hr] at ih
    exact ih hrest

theorem Later.eq_nil {s t : Script} (hlater : Later s t) (h : s = []) : t = [] := by
  induction hlater with
  | here => exact h
  | read _ _ ih => exact ih (by rw [h]; rfl)

/-- However the bytes of a stream are cut up and delayed, it is steady. -/
theorem steady_of_flows {s : Script} (h : ∀ step ∈ s, Flows step) : s.Steady := by
  refine ⟨fun hlater _ hspace => ?_, fun {t u _ more} hlater hspace hnil hrest hmore => ?_⟩
  · obtain ⟨got, rest, hr, -⟩ := read_of_flows (hlater.flows h) hspace
    exact ⟨got, by rw [hr]⟩
  · obtain ⟨got, rest, hr, -, hend⟩ := read_of_flows (hlater.flows h) hspace
    rw [hr] at hnil hrest
    obtain rfl : rest = [] := hend (Reading.bytes.inj hnil)
    obtain rfl : u = [] := hrest.eq_nil rfl
    rfl

/-- Reads of whatever sizes deliver the content. -/
theorem Delivers.eq_content {s : Script} {bytes : Bytes} (h : s.Delivers bytes) :
    bytes = content s := by
  induction h with
  | done hspace hr => rw [content_of_read_nil hspace hr]
  | more _ hgot hr _ ih => rw [ih, content_of_read hgot hr]

/-- A steady stream delivers its content, byte by byte to begin with. -/
theorem Steady.delivers : ∀ {s : Script}, s.Steady → s.Delivers (content s) := by
  intro s
  -- the induction is on the bytes still to come, which a read of any makes fewer
  induction hn : (content s).length using Nat.strongRecOn generalizing s with
  | _ n ih =>
    intro hs
    obtain ⟨got, rest, hr, hsteady, hcontent, -, hnil⟩ := hs.read Nat.one_pos
    by_cases hgot : got = []
    · rw [hnil hgot]
      exact .done Nat.one_pos (hgot ▸ hr)
    · have hlen := congrArg List.length hcontent
      have hpos := List.length_pos_iff.2 hgot
      rw [List.length_append] at hlen
      rw [← hcontent]
      exact .more Nat.one_pos hgot hr (ih _ (by omega) rfl hsteady)

theorem Steady.delivers_iff {s : Script} (h : s.Steady) {bytes : Bytes} :
    s.Delivers bytes ↔ bytes = content s :=
  ⟨Delivers.eq_content, fun hb => hb ▸ h.delivers⟩

end Script

/-! ## Readers -/

/-- All that a reader still has to hand out, what was read ahead first. -/
def content (r : Reader) : Bytes := r.ahead ++ r.script.content

/-- The stream behind the reader is steady. -/
def Steady (r : Reader) : Prop := r.script.Steady

namespace Steady

variable {r : Reader}

/-- One read takes a front of the content, and nothing only if nothing is left. -/
theorem read (h : r.Steady) {space : Nat} (hspace : 0 < space) :
    ∃ got rest, r.read space = (.bytes got, rest) ∧ rest.Steady ∧ rest.window = r.window ∧
      got ++ rest.content = r.content ∧ got.length ≤ space ∧ (got = [] → r.content = []) := by
  rcases hr : r.read space with ⟨reading, rest⟩
  cases reads_of_read hr with
  | ahead hall =>
    refine ⟨_, _, rfl, h, rfl, ?_, length_le_of_read hr, fun hnil => ?_⟩
    · simp only [content]
      rw [← List.append_assoc, List.take_append_drop]
    · exact absurd hnil (take_ne_nil hspace hall)
  | stream hroom hs _ =>
    obtain ⟨got, later, hs', hsteady, hcontent, -, hnil⟩ :=
      Script.Steady.read h (Nat.lt_of_lt_of_le hspace hroom)
    cases hs.symm.trans hs'
    exact ⟨got, _, rfl, hsteady, rfl, hcontent, length_le_of_read hr, hnil⟩
  | window hroom hgot hs =>
    obtain ⟨got, later, hs', hsteady, hcontent, -, hnil⟩ :=
      Script.Steady.read h (Nat.lt_trans hspace hroom)
    cases hs.symm.trans hs'
    refine ⟨_, _, rfl, hsteady, rfl, ?_, length_le_of_read hr, fun hnone => ?_⟩
    · simp only [content]
      rw [← List.append_assoc, List.take_append_drop]
      exact hcontent
    · exact absurd hnone (take_ne_nil hspace hgot)

theorem fillFrom (want : Nat) : ∀ {r : Reader}, r.Steady → ∀ taken : Bytes,
    ∃ rest, fillFrom want taken r = ⟨taken.reverse ++ r.content.take want, .done, rest⟩ ∧
      rest.Steady ∧ rest.window = r.window ∧ rest.content = r.content.drop want := by
  induction want using Nat.strongRecOn with
  | _ want ih =>
    intro r h taken
    rw [Reader.fillFrom]
    by_cases hwant : want = 0
    · subst hwant
      exact ⟨r, by simp, h, rfl, by simp⟩
    · obtain ⟨got, rest, hr, hsteady, hwindow, hcontent, hlen, hnil⟩ :=
        h.read (Nat.pos_of_ne_zero hwant)
      simp only [hwant, ↓reduceIte, hr]
      cases got with
      | nil =>
        have hrest : rest.content = [] := by rw [← hnil rfl, ← hcontent]; rfl
        exact ⟨rest, by simp [hnil rfl], hsteady, hwindow, by simp [hnil rfl, hrest]⟩
      | cons b bs =>
        rw [List.length_cons] at hlen
        obtain ⟨rest', hf, hsteady', hwindow', hcontent'⟩ :=
          ih (want - (b :: bs).length) (by rw [List.length_cons]; omega) hsteady
            ((b :: bs).reverseAux taken)
        refine ⟨rest', ?_, hsteady', hwindow'.trans hwindow, ?_⟩
        · have htake : r.content.take want =
              (b :: bs) ++ rest.content.take (want - (b :: bs).length) := by
            rw [← hcontent, List.take_append, List.take_of_length_le hlen]
          dsimp only
          rw [hf, htake, List.reverseAux_eq, List.reverse_append, List.reverse_reverse,
            List.append_assoc]
        · have hfront : (b :: bs).drop want = [] := List.drop_of_length_le hlen
          rw [hcontent', ← hcontent, List.drop_append, hfront, List.nil_append]

/-- `fill` takes as much as it wants, or all there is. -/
theorem fill (h : r.Steady) (want : Nat) :
    ∃ rest, r.fill want = ⟨r.content.take want, .done, rest⟩ ∧
      rest.Steady ∧ rest.window = r.window ∧ rest.content = r.content.drop want :=
  fillFrom want h []

/-- A refill obtains the next bytes, and its chunk is just these. -/
theorem refill (h : r.Steady) (b : Buffer) :
    ∃ x, Reader.refill b r = x ∧ x.stop = .done ∧ x.chunk = r.content.take b.size ∧
      x.count = min b.size r.content.length ∧ x.buffer.size = b.size ∧ x.rest.Steady ∧
      x.rest.window = r.window ∧ x.rest.content = r.content.drop b.size := by
  obtain ⟨rest, hf, hsteady, hwindow, hcontent⟩ := h.fill b.size
  refine ⟨_, rfl, ?_⟩
  simp only [Reader.refill, hf, Refilled.chunk, Buffer.overwrite]
  refine ⟨trivial, ?_, List.length_take, trivial, hsteady, hwindow, hcontent⟩
  exact List.take_left' rfl

theorem drainFrom : ∀ {r : Reader}, r.Steady → ∀ taken : Bytes,
    ∃ rest, drainFrom taken r = ⟨taken.reverse ++ r.content, .done, rest⟩ ∧ rest.Steady ∧
      rest.content = [] := by
  intro r
  induction hn : r.content.length using Nat.strongRecOn generalizing r with
  | _ n ih =>
    intro h taken
    obtain ⟨got, rest, hr, hsteady, -, hcontent, -, hnil⟩ :=
      h.read (show 0 < transferSize by decide)
    rw [Reader.drainFrom]
    cases got with
    | nil =>
      refine ⟨rest, ?_, hsteady, ?_⟩
      · split <;> simp_all
      · rw [← hnil rfl, ← hcontent]; rfl
    | cons b bs =>
      have hlen := congrArg List.length hcontent
      simp only [List.length_append, List.length_cons] at hlen
      obtain ⟨rest', hd, hsteady', hcontent'⟩ :=
        ih rest.content.length (by omega) rfl hsteady ((b :: bs).reverseAux taken)
      refine ⟨rest', ?_, hsteady', hcontent'⟩
      split
      · simp_all
      · rename_i heq
        rw [hr] at heq
        cases heq
        rw [hd, ← hcontent, List.reverseAux_eq, List.reverse_append, List.reverse_reverse,
          List.append_assoc]
      · simp_all
      · simp_all

theorem drain (h : r.Steady) :
    ∃ rest, r.drain = ⟨r.content, .done, rest⟩ ∧ rest.Steady ∧ rest.content = [] :=
  drainFrom h []

/-- `peek` takes nothing, and finds nothing only if nothing is left. -/
theorem peek (h : r.Steady) (hwindow : 0 < r.window) :
    ∃ ahead rest, r.peek = (.bytes ahead, rest) ∧ rest.Steady ∧ rest.window = r.window ∧
      rest.content = r.content ∧ (ahead = [] ↔ r.content = []) := by
  obtain ⟨script, ahead, window⟩ := r
  cases ahead with
  | cons b bs => exact ⟨_, _, rfl, h, rfl, rfl, by simp [content]⟩
  | nil =>
    obtain ⟨got, rest, hr, hsteady, hcontent, -, hnil⟩ := Script.Steady.read h hwindow
    refine ⟨got, ⟨rest, got, window⟩, by simp only [Reader.peek, hr], hsteady, rfl, hcontent,
      hnil, fun hc => ?_⟩
    have hall : got ++ Script.content rest = [] := hcontent.trans hc
    exact (List.append_eq_nil_iff.1 hall).1

end Steady

end ChunkedUpload.Reader
