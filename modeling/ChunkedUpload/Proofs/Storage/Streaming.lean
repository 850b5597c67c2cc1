import ChunkedUpload.Proofs.Reader.Ending
import ChunkedUpload.Proofs.Storage.Ending
import ChunkedUpload.Storage.Directory

/-!
# How a file is filled

What fills a file writes to it and does nothing else. `Written temp s content t` says that `t` comes
from `s` by such writes, with `content` in the file in the end; what every write keeps is true of
`t`, too, by induction. `Fills` says which content a filling ends with, unless a write fails. Bytes
that are there as a whole are one write (`fills_writeAll`). A stream is one write for each read of
it, so that the file has all that has come when the stream ends, fails or stalls (`fills_copy`).
-/

namespace ChunkedUpload.Directory

open Call (Ends)
open Files (Path Tree)

/-- `t` comes from `s` by writes to the file at `temp`, which has `content` after the last one. -/
inductive Written (temp : Path) (s : Directory) : Bytes → Directory → Prop
  | start : Written temp s [] s
  | write {content next : Bytes} {t : Directory} {tree : Tree} : Written temp s content t →
      t.tree.writeFile temp next = .ok tree → Written temp s next { t with tree }

/-- A call halts because the file at `temp` cannot be written. -/
def Refuses (temp : Path) (halt : Halt) (t : Directory) : Prop :=
  ∃ bytes error, t.tree.writeFile temp bytes = .error error ∧ halt = .failed (.io error)

/-- From `s`, a call writes to the file at `temp` and does nothing else. It answers the size of a
content in `done`, or it halts with a content in `stop`, or because a write fails. -/
def Fills (temp : Path) (fill : Call Directory Nat) (s : Directory) (done : Bytes → Prop)
    (stop : Halt → Bytes → Prop) : Prop :=
  Ends fill s
    (fun size t => ∃ bytes, done bytes ∧ size = bytes.length ∧ Written temp s bytes t)
    (fun halt t => ∃ content, Written temp s content t ∧ (stop halt content ∨ Refuses temp halt t))

variable {temp : Path} {fill : Call Directory Nat} {s t : Directory} {done done' : Bytes → Prop}
  {stop stop' : Halt → Bytes → Prop}

theorem Fills.mono (h : Fills temp fill s done stop) (hdone : ∀ bytes, done bytes → done' bytes)
    (hstop : ∀ halt content, stop halt content → stop' halt content) :
    Fills temp fill s done' stop' := by
  refine Ends.mono h ?_ ?_
  · rintro size t ⟨bytes, hbytes, hsize, hwritten⟩
    exact ⟨bytes, hdone bytes hbytes, hsize, hwritten⟩
  · rintro halt t ⟨content, hwritten, hhalt⟩
    exact ⟨content, hwritten, hhalt.imp_left (hstop halt content)⟩

/-- One write, unless it fails. -/
theorem Written.ends_write {content : Bytes} (h : Written temp s content t) (next : Bytes) :
    Ends (onTree (Tree.writeFile temp next)) t (fun _ t' => Written temp s next t')
      (fun halt t' => t' = t ∧ Refuses temp halt t') := by
  unfold Ends onTree
  cases hwrite : t.tree.writeFile temp next with
  | ok tree => exact h.write hwrite
  | error error => exact ⟨rfl, next, error, hwrite, rfl⟩

/-- Bytes that are there as a whole are written at once. -/
theorem fills_writeAll {content : Call Directory Bytes}
    (hcontent : Ends content s (fun bytes s' => s' = s ∧ done bytes)
      (fun halt s' => s' = s ∧ stop halt [])) :
    Fills temp (writeAll content temp) s done stop := by
  refine Ends.andThen hcontent ?_ ?_
  · rintro halt _ ⟨rfl, hhalt⟩
    exact ⟨[], .start, .inl hhalt⟩
  rintro bytes _ ⟨rfl, hbytes⟩
  refine (Written.start.ends_write bytes).andThen ?_ ?_
  · rintro halt _ ⟨rfl, hrefuses⟩
    exact ⟨[], .start, .inr hrefuses⟩
  · intro _ t hwritten
    exact Ends.pure ⟨bytes, hbytes, rfl, hwritten⟩

/-- Wherever it starts, a filling writes to its file and does nothing else. -/
def OnlyFills (fill : Path → Call Directory Nat) : Prop :=
  ∀ temp s, Fills temp (fill temp) s (fun _ => True) fun _ _ => True

theorem onlyFills_writeAll {content : Call Directory Bytes}
    (hcontent : ∀ s, Ends content s (fun _ s' => s' = s) (fun _ s' => s' = s)) :
    OnlyFills (writeAll content) := fun _ s =>
  fills_writeAll ((hcontent s).mono (fun _ _ h => ⟨h, trivial⟩) fun _ _ h => ⟨h, trivial⟩)

/-! ## Streams -/

/-- How a call halts whose stream ends in this way. -/
def haltOf? : Reader.Stop → Option Halt
  | .done => none
  | .failed error => some (.failed (.io error))
  | .stalled => some .abandoned

theorem haltOf?_eq_abandoned {ending : Reader.Stop} :
    haltOf? ending = some .abandoned ↔ ending = .stalled := by
  cases ending <;> simp [haltOf?]

/-- What was `written` before is kept by every read, and in the end the flow is behind it. -/
theorem ends_copyFrom {written : Bytes} {r : Reader} (h : Written temp s written t) :
    Ends (copyFrom temp written r) t
      (fun size t' => r.ending = .done ∧ size = (written ++ r.flow).length ∧
        Written temp s (written ++ r.flow) t')
      (fun halt t' => ∃ content, Written temp s content t' ∧
        (haltOf? r.ending = some halt ∧ content = written ++ r.flow ∨ Refuses temp halt t')) := by
  have hspace : 0 < Reader.transferSize := by decide
  fun_induction copyFrom temp written r generalizing t with
  | case1 written r rest hr =>
    have hflow : r.flow = [] := Reader.read_fits hspace hr
    rw [hflow, List.append_nil]
    exact Ends.pure ⟨Reader.read_ending hspace hr, rfl, h⟩
  | case2 written r b bs rest hr ih =>
    have hflow : r.flow = (b :: bs) ++ rest.flow := Reader.read_fits hspace hr
    have hending : r.ending = rest.ending := Reader.read_ending hspace hr
    rw [hflow, hending, ← List.append_assoc]
    refine (h.ends_write (written ++ b :: bs)).andThen ?_ fun _ t' hwritten => ih hwritten
    rintro halt _ ⟨rfl, hrefuses⟩
    exact ⟨written, h, .inr hrefuses⟩
  | case3 written r error rest hr hkind hshorter ih =>
    have hfits := (Reader.Reading.fits_interrupted hkind).1 (Reader.read_fits hspace hr)
    have hends := (Reader.Reading.endsFit_interrupted hkind).1 (Reader.read_ending hspace hr)
    rw [hfits.1, hends.1]
    exact ih h
  | case4 written r error rest hr hkind hshorter =>
    have hfits := (Reader.Reading.fits_interrupted hkind).1 (Reader.read_fits hspace hr)
    have hends := (Reader.Reading.endsFit_interrupted hkind).1 (Reader.read_ending hspace hr)
    rw [hfits.2 hshorter, hends.2 hshorter, List.append_nil]
    exact Ends.throw ⟨written, h, .inl ⟨rfl, rfl⟩⟩
  | case5 written r error rest hr hkind =>
    have hflow := (Reader.Reading.fits_failed hkind).1 (Reader.read_fits hspace hr)
    have hending := (Reader.Reading.endsFit_failed hkind).1 (Reader.read_ending hspace hr)
    rw [hflow, hending, List.append_nil]
    exact Ends.fail ⟨written, h, .inl ⟨rfl, rfl⟩⟩
  | case6 written r rest hr =>
    have hflow : r.flow = [] := Reader.read_fits hspace hr
    have hending : r.ending = .stalled := Reader.read_ending hspace hr
    rw [hflow, hending, List.append_nil]
    exact Ends.throw ⟨written, h, .inl ⟨rfl, rfl⟩⟩

/-- The file has all that the stream hands out, whether it ends, fails or stalls then. -/
theorem fills_copy (contents : Reader) (s : Directory) :
    Fills temp (copyFrom temp [] contents) s
      (fun bytes => contents.ending = .done ∧ bytes = contents.flow)
      (fun halt content => haltOf? contents.ending = some halt ∧ content = contents.flow) := by
  refine (ends_copyFrom .start).mono ?_ fun _ _ h => h
  rintro size t ⟨hending, hsize, hwritten⟩
  exact ⟨contents.flow, ⟨hending, rfl⟩, hsize, hwritten⟩

theorem onlyFills_copy (contents : Reader) : OnlyFills fun temp => copyFrom temp [] contents :=
  fun _ s => (fills_copy contents s).mono (fun _ _ => trivial) fun _ _ _ => trivial

end ChunkedUpload.Directory
