import ChunkedUpload.Proofs.Reader.Flow

/-!
# Readers that stall in the end

A stream that `Dries` hands out its flow, however it is cut into reads, and then never answers
again. Filling a buffer does not notice that as long as the flow fills it (`Dries.refill`), nor does
the look ahead as long as some flow is left (`Dries.peek`); later fillings and reading to the end do
(`Dries.refill_stalled`, `Dries.drain`).
-/

namespace ChunkedUpload.Reader

open Script (Flows allowed_pos)

/-- Steps that flow, and then a stall. -/
def Script.Dries (s : Script) : Prop := ∃ steps, (∀ step ∈ steps, Flows step) ∧ s = steps ++ [.stall]

/-- A read hands out something, or the stall has been reached. -/
theorem Script.Dries.read {s : Script} {space : Nat} (h : s.Dries) (hspace : 0 < space) :
    (∃ got rest, s.read space = (.bytes got, rest) ∧ got ≠ [] ∧ rest.Dries) ∨
      ∃ rest, s.read space = (.stalled, rest) := by
  obtain ⟨steps, hflows, rfl⟩ := h
  induction steps with
  | nil => exact .inr ⟨_, rfl⟩
  | cons step steps ih =>
    have hmore := ih fun other hother => hflows other (List.mem_cons_of_mem _ hother)
    have hstep := hflows step List.mem_cons_self
    cases step with
    | data bytes most =>
      cases bytes with
      | nil => exact hmore
      | cons b bs =>
        refine .inl ⟨_, _, rfl, take_ne_nil (allowed_pos hspace hstep) (List.cons_ne_nil b bs),
          .data _ most :: steps, fun other hother => ?_, rfl⟩
        rcases List.mem_cons.1 hother with rfl | hother
        · exact hstep
        · exact hflows other (List.mem_cons_of_mem _ hother)
    | notReady => exact hmore
    | fail | failForever | pause | stall => exact hstep.elim

/-- The stream behind the reader dries. -/
def Dries (r : Reader) : Prop := r.script.Dries

namespace Dries

variable {r : Reader} {space want : Nat}

theorem read (h : r.Dries) (hspace : 0 < space) :
    (∃ got rest, r.read space = (.bytes got, rest) ∧ got ≠ [] ∧ rest.Dries ∧
        rest.window = r.window) ∨
      ∃ rest, r.read space = (.stalled, rest) := by
  rcases hr : r.read space with ⟨reading, rest⟩
  cases reads_of_read hr with
  | ahead hall => exact .inl ⟨_, _, rfl, take_ne_nil hspace hall, h, rfl⟩
  | stream hroom hs =>
    rcases Script.Dries.read h (Nat.lt_of_lt_of_le hspace hroom) with
      ⟨got, later, hs', hgot, hdries⟩ | ⟨later, hs'⟩ <;> cases hs.symm.trans hs'
    · exact .inl ⟨_, _, rfl, hgot, hdries, rfl⟩
    · exact .inr ⟨_, rfl⟩
  | window hroom hgot hs =>
    rcases Script.Dries.read h (Nat.lt_trans hspace hroom) with
      ⟨got, later, hs', -, hdries⟩ | ⟨later, hs'⟩ <;> cases hs.symm.trans hs'
    exact .inl ⟨_, _, rfl, take_ne_nil hspace hgot, hdries, rfl⟩

/-- Before the flow is used up, a read hands out bytes of it. -/
theorem read_flow (h : r.Dries) (hspace : 0 < space) (hflow : r.flow ≠ []) :
    ∃ b bs rest, r.read space = (.bytes (b :: bs), rest) ∧ rest.Dries ∧ rest.window = r.window ∧
      r.flow = (b :: bs) ++ rest.flow ∧ (b :: bs).length ≤ space := by
  rcases h.read hspace with ⟨got, rest, hr, hgot, hdries, hwindow⟩ | ⟨rest, hr⟩
  · obtain ⟨b, bs, rfl⟩ := List.exists_cons_of_ne_nil hgot
    exact ⟨b, bs, rest, hr, hdries, hwindow, read_fits hspace hr, length_le_of_read hr⟩
  · exact absurd (read_fits hspace hr) hflow

theorem fillFrom : ∀ {want : Nat} {r : Reader} (taken : Bytes), r.Dries → want ≤ r.flow.length →
    ∃ rest, fillFrom want taken r = ⟨taken.reverse ++ r.flow.take want, .done, rest⟩ ∧
      rest.Dries ∧ rest.window = r.window ∧ rest.flow = r.flow.drop want := by
  intro want
  induction want using Nat.strongRecOn with
  | _ want ih =>
    intro r taken h hlong
    rw [Reader.fillFrom]
    by_cases hwant : want = 0
    · subst hwant
      exact ⟨r, by simp, h, rfl, by simp⟩
    · have hsome : r.flow ≠ [] := List.length_pos_iff.1 (by omega)
      obtain ⟨b, bs, rest, hr, hdries, hwindow, hflow, hlen⟩ :=
        h.read_flow (Nat.pos_of_ne_zero hwant) hsome
      rw [hflow, List.length_append] at hlong
      obtain ⟨rest', hfill, hdries', hwindow', hflow'⟩ :=
        ih (want - (b :: bs).length) (by simp at hlen ⊢; omega) ((b :: bs).reverseAux taken) hdries
          (by omega)
      refine ⟨rest', ?_, hdries', hwindow'.trans hwindow, ?_⟩
      · simp only [hwant, ↓reduceIte, hr]
        rw [hfill, hflow, List.take_append, List.take_of_length_le hlen, List.reverseAux_eq,
          List.reverse_append, List.reverse_reverse, List.append_assoc]
      · rw [hflow', hflow, List.drop_append, List.drop_of_length_le hlen, List.nil_append]

/-- A buffer that the flow fills is filled. -/
theorem refill (h : r.Dries) {b : Buffer} (hlong : b.size ≤ r.flow.length) :
    ∃ x, Reader.refill b r = x ∧ x.stop = .done ∧ x.chunk = r.flow.take b.size ∧
      x.buffer.size = b.size ∧ x.rest.Dries ∧ x.rest.window = r.window ∧
      x.rest.flow = r.flow.drop b.size := by
  obtain ⟨rest, hfill, hdries, hwindow, hflow⟩ := fillFrom [] h hlong
  refine ⟨_, rfl, ?_⟩
  simp only [Reader.refill, fill, hfill, Refilled.chunk, Buffer.overwrite]
  exact ⟨trivial, List.take_left' rfl, trivial, hdries, hwindow, hflow⟩

theorem fillFrom_stalled {taken : Bytes} (h : r.Dries) (hshort : r.flow.length < want) :
    (Reader.fillFrom want taken r).stop = .stalled := by
  induction want using Nat.strongRecOn generalizing r taken with
  | _ want ih =>
    have hpos : 0 < want := Nat.zero_lt_of_lt hshort
    rw [Reader.fillFrom, if_neg (Nat.ne_of_gt hpos)]
    rcases h.read hpos with ⟨got, rest, hr, hgot, hdries, -⟩ | ⟨rest, hr⟩
    · obtain ⟨b, bs, rfl⟩ := List.exists_cons_of_ne_nil hgot
      have hflow : r.flow = (b :: bs) ++ rest.flow := read_fits hpos hr
      rw [hflow, List.length_append] at hshort
      simp only [hr]
      exact ih (want - (b :: bs).length) (by simp at hshort ⊢; omega) hdries (by omega)
    · simp only [hr]

/-- A buffer that the flow does not fill is waited for for ever. -/
theorem refill_stalled (h : r.Dries) {b : Buffer} (hshort : r.flow.length < b.size) :
    (Reader.refill b r).stop = .stalled := fillFrom_stalled h hshort

/-- The look ahead finds what is left of the flow, and leaves it. -/
theorem peek (h : r.Dries) (hwindow : 0 < r.window) (hflow : r.flow ≠ []) :
    ∃ ahead rest, r.peek = (.bytes ahead, rest) ∧ ahead ≠ [] ∧ rest.Dries ∧
      rest.flow = r.flow := by
  obtain ⟨script, ahead, window⟩ := r
  cases ahead with
  | cons b bs => exact ⟨b :: bs, _, rfl, List.cons_ne_nil b bs, h, rfl⟩
  | nil =>
    rcases Script.Dries.read h hwindow with ⟨got, rest, hr, hgot, hdries⟩ | ⟨rest, hr⟩
    · obtain ⟨b, bs, rfl⟩ := List.exists_cons_of_ne_nil hgot
      refine ⟨b :: bs, ⟨rest, b :: bs, window⟩, by simp only [Reader.peek, hr], hgot, hdries, ?_⟩
      exact (Script.read_fits hwindow hr).symm
    · exact absurd (Script.read_fits hwindow hr) hflow

theorem drainFrom (taken : Bytes) {r : Reader} (h : r.Dries) :
    (drainFrom taken r).stop = .stalled := by
  have hspace : 0 < transferSize := by decide
  fun_induction Reader.drainFrom taken r with
  | case1 taken r rest hr =>
    rcases h.read hspace with ⟨got, rest', hr', hgot, -⟩ | ⟨rest', hr'⟩ <;> rw [hr] at hr' <;>
      cases hr'
    exact absurd rfl hgot
  | case2 taken r b bs rest hr ih =>
    rcases h.read hspace with ⟨got, rest', hr', -, hdries, -⟩ | ⟨rest', hr'⟩ <;> rw [hr] at hr' <;>
      cases hr'
    exact ih hdries
  | case3 taken r error rest hr =>
    rcases h.read hspace with ⟨got, rest', hr', -⟩ | ⟨rest', hr'⟩ <;> rw [hr] at hr' <;> cases hr'
  | case4 | case6 => rfl
  | case5 taken r error rest hr =>
    rcases h.read hspace with ⟨got, rest', hr', -⟩ | ⟨rest', hr'⟩ <;> rw [hr] at hr' <;> cases hr'

/-- Reading to the end stalls. -/
theorem drain (h : r.Dries) : r.drain.stop = .stalled := drainFrom [] h

end Dries

end ChunkedUpload.Reader
