import Mathlib
import ChunkedUpload.Proofs.S3.Agreement
import ChunkedUpload.Proofs.Storage.DirectoryAgreement

/-!
# Files and services are the same store

A `Regular` history names its objects so that files can keep them side by side. From empty stores,
it has the answers of the plain map below a root of a tree, and on a service just if all its
requests are fit for the service (`S3.Store.Fit`): a service refuses to join small objects, unless
it is lenient. The simulations of single requests (`Directory.Ready.agree`, `S3.Store.Ready.agree`)
are lifted to whole histories.
-/

namespace ChunkedUpload

/-- The addresses that a history is about. -/
def usedBy (requests : List Request) : List Address := requests.flatMap Request.addresses

/-- The root is a directory with nothing in it. -/
structure Directory.Empty (d : Directory) : Prop where
  well : d.tree.WellFormed
  isDir : d.tree.isDir d.root = true
  nothing : ∀ loc name, d.tree.realpath d.root = .ok loc → d.tree.node? (name :: loc) = none

/-- The service has no objects and no faults. -/
structure S3.Store.Empty (s : S3.Store) : Prop where
  reachable : s.reachable = true
  serves : s.server.Serves s.server.lenient {} []

/-- A history that a directory is fit for: names have no special meaning, no object is above another
one, a written name leaves room for its temporary file, temporary names are new, streams do not fail
and no object grows too large for one copy. -/
structure Regular (d : Directory) (requests : List Request) : Prop where
  suitable : Directory.Suitable d.root (usedBy requests)
  room : ∀ request ∈ requests, ∀ a ∈ request.targets, Directory.Roomy d.root a
  fresh : ∀ n < requests.length, Directory.Fresh (usedBy requests) (d.ticket + n)
  steady : ∀ request ∈ requests, ∀ contents ∈ request.readers, contents.Steady
  small : ∀ m ∈ states requests ({} : ObjectMap), S3.Store.Small m

theorem mem_states {σ : Type} [ObjectStore σ] (requests : List Request) (s : σ) :
    s ∈ states requests s := by
  cases requests with
  | nil => exact List.mem_singleton_self s
  | cons request later => exact List.mem_cons_self

namespace Directory

variable {root : Files.Path} {used : List Address} {d : Directory}

theorem Empty.holds (h : d.Empty) (used : List Address) :
    ∃ loc, Holds d.root loc used d {} := by
  obtain ⟨htext, loc, hleads⟩ := Files.Tree.isDir_iff.1 h.isDir
  have hrooted := rooted_of_leadsTo h.well htext hleads
  have hnothing : ∀ q, q ≠ [] → d.tree.node? (Files.under loc q) = none := by
    intro q hq
    by_contra hsome
    obtain ⟨first, rest, rfl⟩ := List.exists_cons_of_ne_nil hq
    induction rest using List.reverseRecOn with
    | nil => exact hsome (h.nothing loc first (Files.Tree.realpath_of_leadsTo htext hleads))
    | append_singleton rest name ih =>
      rw [← List.cons_append, Files.under_concat] at hsome
      refine ih (List.cons_ne_nil _ _) ?_
      rw [h.well.above hsome]
      nofun
  refine ⟨loc, rfl, htext, ⟨hrooted, fun a _ pre _ _ => ?_, fun a _ => ?_⟩, fun q hq hsome => ?_⟩
  · cases pre with
    | nil => exact .inr hrooted.dir
    | cons first rest => exact .inl (hnothing _ (List.cons_ne_nil _ _))
  · rw [hnothing (placeOf a) (List.cons_ne_nil _ _)]
    rfl
  · exact absurd (hnothing q hq) hsome

/-- A directory that is the map before some requests, with tickets for all of them. -/
structure Ready (root : Files.Path) (loc : Files.Location) (used : List Address)
    (later : List Request) (d : Directory) (m : ObjectMap) : Prop where
  holds : Holds root loc used d m
  fresh : ∀ n < later.length, Fresh used (d.ticket + n)
  used : ∀ request ∈ later, ∀ a ∈ request.addresses, a ∈ used
  room : ∀ request ∈ later, ∀ a ∈ request.targets, Roomy root a
  steady : ∀ request ∈ later, ∀ contents ∈ request.readers, contents.Steady

theorem Ready.agree {loc : Files.Location} {request : Request} {later : List Request}
    {m : ObjectMap} (hused : Suitable root used) (h : Ready root loc used (request :: later) d m) :
    Call.Agree (Ready root loc used later) (request.run d) (request.run m) := by
  obtain ⟨houtcome, hholds, hleast, hmost⟩ := request_agree h.holds hused
    (h.fresh 0 (Nat.succ_pos _)) (h.used request List.mem_cons_self)
    (h.room request List.mem_cons_self) (h.steady request List.mem_cons_self)
  refine ⟨houtcome, hholds, fun n hn => ?_,
    fun other hother => h.used other (List.mem_cons_of_mem _ hother),
    fun other hother => h.room other (List.mem_cons_of_mem _ hother),
    fun other hother => h.steady other (List.mem_cons_of_mem _ hother)⟩
  obtain ⟨taken, htaken, heq⟩ : ∃ taken, taken ≤ 1 ∧
      (Call.final (request.run d)).ticket = d.ticket + taken :=
    ⟨(Call.final (request.run d)).ticket - d.ticket, by omega, by omega⟩
  rw [heq, Nat.add_assoc]
  exact h.fresh (taken + n) (by rw [List.length_cons]; omega)

end Directory

namespace S3.Store

/-- A service that is the map before some requests, none of which makes an object too large. -/
structure Ready (lenient : Bool) (c : Client) (later : List ChunkedUpload.Request) (s : Store)
    (m : ObjectMap) : Prop where
  holds : Holds lenient c s m
  addresses : ∀ request ∈ later, ∀ a ∈ request.addresses,
    a.1 ≠ "" ∧ '/' ∉ a.1.toList ∧ a.2 ≠ ""
  steady : ∀ request ∈ later, ∀ contents ∈ request.readers, contents.Steady
  small : ∀ m' ∈ states later m, Small m'

namespace Ready

variable {lenient : Bool} {c : Client} {request : ChunkedUpload.Request}
  {later : List ChunkedUpload.Request} {s : Store} {m : ObjectMap}

theorem agree (h : Ready lenient c (request :: later) s m) (hfit : Fit lenient m request) :
    Call.Agree (Ready lenient c later) (request.run s) (request.run m) := by
  have hafter : ∀ m' ∈ states later (Call.final (request.run m)), Small m' := fun m' hm' =>
    h.small m' (List.mem_cons_of_mem _ hm')
  obtain ⟨houtcome, hholds⟩ := request_agree h.holds (h.addresses request List.mem_cons_self)
    (h.steady request List.mem_cons_self) (h.small m List.mem_cons_self)
    (hafter _ (mem_states later _)) hfit
  exact ⟨houtcome, hholds, fun other hother => h.addresses other (List.mem_cons_of_mem _ hother),
    fun other hother => h.steady other (List.mem_cons_of_mem _ hother), hafter⟩

theorem differs (h : Ready lenient c (request :: later) s m) (hunfit : ¬ Fit lenient m request) :
    Call.outcome (request.run s) ≠ Call.outcome (request.run m) :=
  request_differs h.holds (h.addresses request List.mem_cons_self)
    (h.small m List.mem_cons_self) hunfit

end Ready

end S3.Store

/-- **Files and services are observationally the same store**, but for small objects: a regular
history has the same answers below an empty root of a tree and on the plain map. A service without
faults answers so, too, just if nothing in the history asks it to join objects that it does not take
as parts: objects that are all there, and one of which, but not the last, has less than 5 MiB. A
lenient service takes all. -/
theorem answers_eq_of_regular {d : Directory} {s : S3.Store} {requests : List Request}
    (hregular : Regular d requests) (hd : d.Empty) (hs : s.Empty) :
    answers requests d = answers requests ({} : ObjectMap) ∧
      (answers requests s = answers requests ({} : ObjectMap) ↔
        ∀ p ∈ requests.zip (states requests ({} : ObjectMap)),
          S3.Store.Fit s.server.lenient p.2 p.1) ∧
      (s.server.lenient = true → answers requests s = answers requests ({} : ObjectMap)) := by
  have hused : ∀ request ∈ requests, ∀ a ∈ request.addresses, a ∈ usedBy requests :=
    fun request hrequest a ha => List.mem_flatMap.2 ⟨request, hrequest, ha⟩
  have haddresses : ∀ request ∈ requests, ∀ a ∈ request.addresses,
      a.1 ≠ "" ∧ '/' ∉ a.1.toList ∧ a.2 ≠ "" := by
    intro request hrequest a ha
    have hplain := hregular.suitable.plain a (hused request hrequest a ha)
    refine ⟨hplain.bucket.1, hplain.not_mem_bucket rfl, fun hempty => ?_⟩
    have hpiece := hplain.pieces "" (by rw [hempty]; decide)
    exact absurd rfl hpiece.1
  have hready : S3.Store.Ready s.server.lenient s.client requests s {} :=
    ⟨⟨{}, ⟨rfl, hs.reachable, hs.serves⟩, fun _ _ => rfl⟩, haddresses, hregular.steady,
      hregular.small⟩
  have hservice := answers_eq_iff (fun h hfit => h.agree hfit) (fun h => h.differs) hready
  refine ⟨?_, hservice, fun hlenient => hservice.2 fun p _ => ?_⟩
  · obtain ⟨loc, hholds⟩ := hd.holds (usedBy requests)
    have hready : Directory.Ready d.root loc (usedBy requests) requests d {} :=
      ⟨hholds, hregular.fresh, hused, hregular.room, hregular.steady⟩
    exact answers_eq_of_agree (fun h => h.agree hregular.suitable) hready
  · rw [hlenient]
    exact S3.Store.fit_of_lenient p.2 p.1

/-! A history in which an object is composed over one of its own parts, and another one of a part
that is missing. -/

def sampleHistory : List Request := [
  .create "b" "a/x" [1] false,
  .createFromReader "b" "a/y" { script := [.data [2] (some 1), .notReady, .data [3] none] },
  .compose "b" ["a/x", "a/y"] "a/x",
  .compose "b" ["a/x", "gone"] "n/z",
  .get "b" "n/z",
  .delete "b" "a/y",
  .get "b" "a/x"]

def emptyRoot : Directory where
  tree := { entries := [(["r"], .dir)] }
  root := ["", "r"]

def emptyService : S3.Store where
  client := ⟨some "p", "https://s3", "auto"⟩

def lenientService : S3.Store where
  client := ⟨some "p", "https://s3", "auto"⟩
  server := { lenient := true }

theorem empty_emptyRoot : emptyRoot.Empty where
  well := .of_entries rfl (by decide)
  isDir := by cbv
  nothing := by
    intro loc name h
    have hroot : emptyRoot.tree.realpath emptyRoot.root = .ok ["r"] := by cbv
    rw [hroot] at h
    cases h
    simp [emptyRoot, Files.Tree.node?, List.lookup_cons]

theorem regular_sampleHistory : Regular emptyRoot sampleHistory := by
  have hpieces : ∀ a ∈ usedBy sampleHistory, ∀ piece ∈ Files.Path.ofText a.2,
      piece.utf8ByteSize < 41 := by decide +kernel
  have hroom : ∀ request ∈ sampleHistory, ∀ a ∈ request.targets,
      (Directory.pathOf emptyRoot.root a.1 a.2).width + Files.TempName.suffixLength <
        Files.Tree.pathMax := by
    decide +kernel
  refine ⟨⟨fun a ha => ?_, by decide +kernel, by decide +kernel⟩, hroom,
    fun n _ a ha piece hpiece name => ?_,
    fun request hrequest contents hcontents => ?_, fun m hm => S3.Store.small_of_entries ?_⟩
  · have hbuckets : ∀ a ∈ usedBy sampleHistory, a.1 ≠ "" ∧
        a.1.toList.all Char.isAlphanum = true ∧ a.1.utf8ByteSize ≤ Files.Tree.nameMax := by
      decide +kernel
    have hkeys : ∀ a ∈ usedBy sampleHistory, ∀ piece ∈ Files.Path.ofText a.2, piece ≠ "" ∧
        piece ≠ "." ∧ Directory.hasDoubleDot piece.toList = false ∧ '\x00' ∉ piece.toList ∧
        piece.toList.head? ≠ some '\\' ∧
        piece.utf8ByteSize + Files.TempName.suffixLength ≤ Files.Tree.nameMax := by
      decide +kernel
    obtain ⟨hne, hall, hsize⟩ := hbuckets a ha
    exact ⟨⟨hne, List.all_eq_true.1 hall, hsize⟩, hkeys a ha⟩
  · rintro rfl
    have hshort := hpieces a ha _ hpiece
    rw [Files.TempName.utf8ByteSize_of] at hshort
    omega
  · simp only [sampleHistory, List.mem_cons, List.not_mem_nil, or_false] at hrequest
    rcases hrequest with rfl | rfl | rfl | rfl | rfl | rfl | rfl
    case inr.inl =>
      rw [List.mem_singleton.1 hcontents]
      exact Reader.Script.steady_of_flows (by simp [Reader.Script.Flows])
    all_goals cases hcontents
  · have hstates : states sampleHistory ({} : ObjectMap) = [⟨[]⟩, ⟨[(("b", "a/x"), [1])]⟩,
        ⟨[(("b", "a/y"), [2, 3]), (("b", "a/x"), [1])]⟩,
        ⟨[(("b", "a/x"), [1, 2, 3]), (("b", "a/y"), [2, 3])]⟩,
        ⟨[(("b", "a/x"), [1, 2, 3]), (("b", "a/y"), [2, 3])]⟩,
        ⟨[(("b", "a/x"), [1, 2, 3]), (("b", "a/y"), [2, 3])]⟩, ⟨[(("b", "a/x"), [1, 2, 3])]⟩,
        ⟨[(("b", "a/x"), [1, 2, 3])]⟩] := by cbv
    rw [hstates] at hm
    revert m
    decide +kernel

theorem answers_eq_sampleHistory :
    Regular emptyRoot sampleHistory ∧ emptyRoot.Empty ∧ lenientService.Empty ∧
      answers sampleHistory emptyRoot = answers sampleHistory lenientService ∧
      answers sampleHistory lenientService = [.ok (.stored ⟨"b", "a/x", 1⟩),
        .ok (.stored ⟨"b", "a/y", 2⟩), .ok (.stored ⟨"b", "a/x", 3⟩),
        .error (.failed (.notFound "gone")), .error (.failed (.notFound "n/z")), .ok .deleted,
        .ok (.content [1, 2, 3])] := by
  have hservice : lenientService.Empty := ⟨rfl, rfl, rfl, rfl, rfl, rfl⟩
  obtain ⟨hroot, -, hshelf⟩ := answers_eq_of_regular regular_sampleHistory empty_emptyRoot hservice
  refine ⟨regular_sampleHistory, empty_emptyRoot, hservice, hroot.trans (hshelf rfl).symm, ?_⟩
  rw [hshelf rfl]
  cbv

/-- A service that is not lenient refuses to put the bytes of a small object before others. -/
theorem answers_differ_sampleHistory :
    Regular emptyRoot sampleHistory ∧ emptyService.Empty ∧
      answers sampleHistory emptyService = [.ok (.stored ⟨"b", "a/x", 1⟩),
        .ok (.stored ⟨"b", "a/y", 2⟩), .error (.failed S3.Store.refusal),
        .error (.failed (.notFound "gone")), .error (.failed (.notFound "n/z")), .ok .deleted,
        .ok (.content [1])] ∧
      answers sampleHistory emptyService ≠ answers sampleHistory ({} : ObjectMap) := by
  have hservice : answers sampleHistory emptyService = [.ok (.stored ⟨"b", "a/x", 1⟩),
      .ok (.stored ⟨"b", "a/y", 2⟩), .error (.failed S3.Store.refusal),
      .error (.failed (.notFound "gone")), .error (.failed (.notFound "n/z")), .ok .deleted,
      .ok (.content [1])] := by
    cbv
  have hmap : answers sampleHistory ({} : ObjectMap) = [.ok (.stored ⟨"b", "a/x", 1⟩),
      .ok (.stored ⟨"b", "a/y", 2⟩), .ok (.stored ⟨"b", "a/x", 3⟩),
      .error (.failed (.notFound "gone")), .error (.failed (.notFound "n/z")), .ok .deleted,
      .ok (.content [1, 2, 3])] := by
    cbv
  refine ⟨regular_sampleHistory, ⟨rfl, rfl, rfl, rfl, rfl, rfl⟩, hservice, ?_⟩
  rw [hservice, hmap]
  simp

end ChunkedUpload
