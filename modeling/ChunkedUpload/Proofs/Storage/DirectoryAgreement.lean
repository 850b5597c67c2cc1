import ChunkedUpload.Proofs.Storage.Histories
import ChunkedUpload.Proofs.Storage.Writing

/-!
# A store in files is a map

`Holds root loc used d m`: the objects of `d` at the addresses `used` are those of `m`, and nothing
stands below the root but these files and directories on the way to their places. Every request for
such addresses comes to the same in the directory and on the map, and leaves the two related
(`request_agree`). A write that fails leaves directories behind, which no request can tell from
nothing.
-/

namespace ChunkedUpload.Directory

open Files (Location Node Path Tree under)
open Files.Tree (Around Open Paved Rooted checkText)
open Call (Agree Ends)

variable {root : Path} {loc : Location} {used : List Address} {t t' : Tree} {m m' : ObjectMap}
  {d : Directory} {a : Address} {q : Path} {name : String}

/-- The files below the root have the contents of a map at the used addresses. -/
structure Shows (root : Path) (loc : Location) (used : List Address) (t : Tree) (m : ObjectMap) :
    Prop where
  rooted : t.Rooted (rootBase root) loc
  opens : ∀ a ∈ used, t.Open loc (placeOf a)
  objects : ∀ a ∈ used, t.node? (under loc (placeOf a)) = (m.get? a).map .file

/-- The directory is that map, with nothing else below the root. -/
structure Holds (root : Path) (loc : Location) (used : List Address) (d : Directory)
    (m : ObjectMap) : Prop where
  base : d.root = root
  text : checkText root = .ok ()
  shown : Shows root loc used d.tree m
  known : ∀ q, q ≠ [] → d.tree.node? (under loc q) ≠ none → ∃ a ∈ used, q <+: placeOf a

/-- No name in a used key is a temporary name for the ticket. -/
def Fresh (used : List Address) (ticket : Nat) : Prop :=
  ∀ a ∈ used, ∀ piece ∈ Path.ofText a.2, ∀ name, piece ≠ Files.TempName.of name ticket

namespace Shows

/-! ## Reading -/

theorem node?_cases (h : Shows root loc used t m) (ha : a ∈ used) {node : Node}
    (hnode : t.node? (under loc (placeOf a)) = some node) : ∃ content, node = .file content := by
  rw [h.objects a ha] at hnode
  obtain ⟨content, -, rfl⟩ := Option.map_eq_some_iff.1 hnode
  exact ⟨content, rfl⟩

theorem objectPath (h : Shows root loc used t m) (hused : Suitable root used) (ha : a ∈ used)
    (htext : checkText root = .ok ()) (ticket : Nat) :
    Directory.objectPath ⟨t, root, ticket⟩ a.1 a.2 = .ok (rootBase root ++ placeOf a) := by
  refine objectPath_under hused ha htext h.rooted (h.opens a ha) fun p hlink => ?_
  obtain ⟨content, heq⟩ := h.node?_cases ha hlink
  cases heq

theorem contentOf (h : Shows root loc used t m) (hused : Suitable root used) (ha : a ∈ used)
    (htext : checkText root = .ok ()) :
    Directory.contentOf t a.2 (rootBase root ++ placeOf a) =
      (m.get? a).elim (.error (.notFound a.2)) .ok := by
  rw [Directory.contentOf, h.rooted.readFile (hused.plain a ha).place (List.cons_ne_nil _ _)
    (h.opens a ha) (h.objects a ha) (hused.checkText ha htext)]
  cases m.get? a <;> rfl

theorem gather (h : Shows root loc used t m) (hused : Suitable root used)
    (htext : checkText root = .ok ()) {bucket : String} {sources : List String}
    (hsources : ∀ source ∈ sources, (bucket, source) ∈ used) :
    Directory.gather t (sources.map fun source =>
        (source, rootBase root ++ placeOf (bucket, source))) = m.gather bucket sources := by
  induction sources with
  | nil => rfl
  | cons source others ih =>
    rw [List.forall_mem_cons] at hsources
    rw [List.map_cons, Directory.gather, h.contentOf hused hsources.1 htext, ih hsources.2,
      ObjectMap.gather]

theorem objectPaths (h : Shows root loc used t m) (hused : Suitable root used)
    (htext : checkText root = .ok ()) (ticket : Nat) {bucket : String} {sources : List String}
    (hsources : ∀ source ∈ sources, (bucket, source) ∈ used) :
    Directory.objectPaths ⟨t, root, ticket⟩ bucket sources = .ok (sources.map fun source =>
      (source, rootBase root ++ placeOf (bucket, source))) := by
  induction sources with
  | nil => rfl
  | cons source others ih =>
    rw [List.forall_mem_cons] at hsources
    rw [Directory.objectPaths, h.objectPath hused hsources.1 htext ticket, ih hsources.2]
    rfl

/-! ## Writing -/

theorem clear (h : Shows root loc used t m) (ha : a ∈ used) (hplace : placeOf a = q ++ [name]) :
    ∀ pre, pre <+: q → t.node? (under loc pre) = none ∨ t.node? (under loc pre) = some .dir := by
  intro pre hpre
  refine h.opens a ha pre (hplace ▸ hpre.trans (List.prefix_append q [name])) fun heq => ?_
  have hlen := hpre.length_le
  rw [heq, hplace, List.length_append, List.length_singleton] at hlen
  omega

theorem writable (h : Shows root loc used t m) (hused : Suitable root used)
    (htext : checkText root = .ok ()) (ha : a ∈ used) (hplace : placeOf a = q ++ [name])
    (hne : q ≠ []) : Writable t (rootBase root) loc q name where
  rooted := h.rooted
  plain := hplace ▸ (hused.plain a ha).place
  nonempty := hne
  clear := h.clear ha hplace
  file := by
    intro node hnode
    rw [← Files.under_concat, ← hplace] at hnode
    exact h.node?_cases ha hnode
  text := hplace ▸ hused.checkText ha htext

/-- What changes around one name in the directory of a place leaves the other places alone. -/
theorem of_around {last : String} (h : Shows root loc used t m) (hused : Suitable root used)
    (ha : a ∈ used) (hplace : placeOf a = q ++ [last]) (hrooted : t'.Rooted (rootBase root) loc)
    (haround : Around t loc q name t')
    (hname : ∀ a' ∈ used, q ++ [name] <+: placeOf a' → placeOf a' = q ++ [name])
    (hobjects : ∀ a' ∈ used, placeOf a' = q ++ [name] →
      t'.node? (name :: under loc q) = (m'.get? a').map .file)
    (hsame : ∀ a' ∈ used, placeOf a' ≠ q ++ [name] → m'.get? a' = m.get? a') :
    Shows root loc used t' m' := by
  have hbeside : ∀ p, p ≠ q ++ [name] → under loc p ≠ name :: under loc q := by
    intro p hp heq
    rw [← Files.under_concat, Files.under_inj] at heq
    exact hp heq
  have hbelow : ∀ a' ∈ used, ¬placeOf a' <+: q := by
    intro a' ha' hpre
    have hsame := hused.eq_of_above ha' ha (hplace ▸ hpre.trans (List.prefix_append q [last]))
    have hlen := hpre.length_le
    rw [hsame, hplace, List.length_append, List.length_singleton] at hlen
    omega
  refine ⟨hrooted, fun a' ha' pre hpre hne => ?_, fun a' ha' => ?_⟩
  · by_cases hmade : pre <+: q
    · exact .inr (haround.made pre hmade)
    · have hother : pre ≠ q ++ [name] := fun heq => hne (heq ▸ (hname a' ha' (heq ▸ hpre)).symm)
      rw [haround.others _ (hbeside pre hother) fun pre' hpre' heq => hmade
        (Files.under_inj.1 heq ▸ hpre')]
      exact h.opens a' ha' pre hpre hne
  · by_cases hself : placeOf a' = q ++ [name]
    · rw [hself, Files.under_concat]
      exact hobjects a' ha' hself
    · rw [haround.others _ (hbeside _ hself) fun pre' hpre' heq => hbelow a' ha'
        (Files.under_inj.1 heq ▸ hpre'), h.objects a' ha', hsame a' ha' hself]

/-- A temporary file hides nothing. -/
theorem temp (h : Shows root loc used t m) (hused : Suitable root used) (ha : a ∈ used)
    (hplace : placeOf a = q ++ [name]) {other : String}
    (hother : ∀ a' ∈ used, ¬q ++ [other] <+: placeOf a')
    (hrooted : t'.Rooted (rootBase root) loc) (haround : Around t loc q other t') :
    Shows root loc used t' m :=
  h.of_around hused ha hplace hrooted haround (fun a' ha' hpre => (hother a' ha' hpre).elim)
    (fun a' ha' heq => (hother a' ha' (heq ▸ List.prefix_refl _)).elim) fun _ _ _ => rfl

end Shows

namespace Holds

/-- After a change at the place of one object, the directory is the map with that object changed. -/
theorem put (h : Holds root loc used d m) (hused : Suitable root used) (ha : a ∈ used)
    (hplace : placeOf a = q ++ [name]) (hne : q ≠ []) (haround : Around d.tree loc q name t')
    (hnode : t'.node? (name :: under loc q) = (m'.get? a).map .file)
    (hsame : ∀ a', a' ≠ a → m'.get? a' = m.get? a') (ticket : Nat) :
    Holds root loc used { d with tree := t', ticket } m' := by
  have hwritable := h.shown.writable hused h.text ha hplace hne
  refine ⟨h.base, h.text, h.shown.of_around hused ha hplace (hwritable.rooted_of_around haround)
    haround (fun a' ha' hpre => ?_) (fun a' ha' heq => ?_) fun a' ha' hother => ?_,
    fun p hp hsome => ?_⟩
  · rw [← hplace] at hpre ⊢
    rw [hused.eq_of_above ha ha' hpre]
  · rw [← hplace, placeOf_inj] at heq
    rw [heq, hnode]
  · exact hsame a' fun heq => hother (heq ▸ hplace)
  · by_cases hpre : p <+: placeOf a
    · exact ⟨a, ha, hpre⟩
    · refine h.known p hp fun hnone => hsome ?_
      rw [haround.others _ (fun heq => ?_) fun pre hpre' heq => ?_, hnone]
      · rw [← Files.under_concat, Files.under_inj, ← hplace] at heq
        exact hpre (heq ▸ List.prefix_refl _)
      · rw [Files.under_inj] at heq
        exact hpre (heq ▸ hplace ▸ hpre'.trans (List.prefix_append q [name]))

theorem temp_ne (hfresh : Fresh used d.ticket) (hne : q ≠ []) :
    ∀ a ∈ used, ¬q ++ [Files.TempName.of name d.ticket] <+: placeOf a := by
  intro a ha hpre
  obtain ⟨bucket, rest, rfl⟩ := List.exists_cons_of_ne_nil hne
  rw [placeOf, List.cons_append, List.cons_prefix_cons] at hpre
  exact hfresh a ha (Files.TempName.of name d.ticket) (hpre.2.subset (by simp)) name rfl

theorem temp_free (h : Holds root loc used d m) (hfresh : Fresh used d.ticket) (hne : q ≠ []) :
    d.tree.node? (Files.TempName.of name d.ticket :: under loc q) = none := by
  by_contra hsome
  rw [← Files.under_concat] at hsome
  obtain ⟨a, ha, hpre⟩ := h.known _ (by simp) hsome
  exact temp_ne hfresh hne a ha hpre

end Holds

/-! ## Requests -/

/-- The directory is the map after a request, which takes one ticket at most. -/
structure Follows (root : Path) (loc : Location) (used : List Address) (d d' : Directory)
    (m : ObjectMap) : Prop where
  holds : Holds root loc used d' m
  ticket : d.ticket ≤ d'.ticket ∧ d'.ticket ≤ d.ticket + 1

theorem Holds.follows (h : Holds root loc used d m) : Follows root loc used d d m :=
  ⟨h, Nat.le_refl _, Nat.le_succ _⟩

theorem Holds.objectPath (h : Holds root loc used d m) (hused : Suitable root used)
    (ha : a ∈ used) : d.objectPath a.1 a.2 = .ok (rootBase root ++ placeOf a) := by
  obtain ⟨tree, root', ticket⟩ := d
  obtain rfl : root' = root := h.base
  exact h.shown.objectPath hused ha h.text ticket

/-- The object can be written, and its temporary file beside it. -/
theorem Holds.exists_writable (h : Holds root loc used d m) (hused : Suitable root used)
    (hfresh : Fresh used d.ticket) (ha : a ∈ used) (hroom : Roomy root a) :
    ∃ q name, placeOf a = q ++ [name] ∧ q ≠ [] ∧ Writable d.tree (rootBase root) loc q name ∧
      Writable d.tree (rootBase root) loc q (Files.TempName.of name d.ticket) ∧
      d.tree.node? (Files.TempName.of name d.ticket :: under loc q) = none := by
  obtain ⟨front, name, hplace, -⟩ := exists_placeOf a
  obtain ⟨q, hq⟩ : ∃ q, q = a.1 :: front := ⟨_, rfl⟩
  have hne : q ≠ [] := hq ▸ List.cons_ne_nil _ _
  rw [← hq] at hplace
  have hfree : d.tree.node? (Files.TempName.of name d.ticket :: under loc q) = none :=
    h.temp_free hfresh hne
  refine ⟨q, name, hplace, hne, h.shown.writable hused h.text ha hplace hne, ?_, hfree⟩
  refine ⟨h.shown.rooted, hused.temp ha hplace _, hne, h.shown.clear ha hplace,
    fun node hnode => ?_, hused.checkText_temp ha hroom hplace h.text _⟩
  rw [hfree] at hnode
  cases hnode

/-- What fills a file with one content, if the outcome has one, and fails otherwise. -/
def FillsWith (outcome : Except StorageError Bytes) (temp : Path) (fill : Call Directory Nat)
    (s : Directory) : Prop :=
  match outcome with
  | .ok bytes => Fills temp fill s (· = bytes) fun _ _ => False
  | .error error => Fills temp fill s (fun _ => False) fun halt _ => halt = .failed error

theorem fillsWith_writeAll {temp : Path} {content : Call Directory Bytes} {s : Directory}
    {outcome : Except StorageError Bytes} (h : content s = Call.ofExcept outcome s) :
    FillsWith outcome temp (writeAll content temp) s := by
  cases outcome with
  | ok bytes => exact fills_writeAll (Ends.of_ok h ⟨rfl, rfl⟩)
  | error error =>
    refine fills_writeAll ?_
    rw [Ends, h]
    exact ⟨rfl, rfl⟩

/-- A write comes to what its filling comes to; if that fails, nothing changes. -/
theorem write_agree (outcome : Except StorageError Bytes) (h : Holds root loc used d m)
    (hused : Suitable root used) (hfresh : Fresh used d.ticket) (ha : a ∈ used)
    (hroom : Roomy root a) {fill : Path → Call Directory Nat}
    (hfill : ∀ (temp : Path) (s : Directory), Shows root loc used s.tree m →
      FillsWith outcome temp (fill temp) s) :
    Agree (Follows root loc used d)
      ((do
        let size ← replaceFile (rootBase root ++ placeOf a) fill
        pure (⟨a.1, a.2, size⟩ : StoredObject)) d)
      (match outcome with
        | .error error => .error (.failed error) m
        | .ok bytes => ObjectMap.put a.1 a.2 bytes m) := by
  obtain ⟨q, name, hplace, hne, hwritable, htemp, hfree⟩ :=
    h.exists_writable hused hfresh ha hroom
  have hshown : ∀ (temp : Path) (s : Directory),
      Around d.tree loc q (Files.TempName.of name d.ticket) s.tree →
        FillsWith outcome temp (fill temp) s := fun temp s haround => hfill temp s
    (h.shown.temp hused ha hplace (Holds.temp_ne hfresh hne) (htemp.rooted_of_around haround)
      haround)
  rw [hplace]
  cases outcome with
  | error error =>
    obtain ⟨t, hfailed, hpaved⟩ := replaceFile_failed hwritable htemp hfree hshown
    rw [Call.bind_of_error hfailed]
    refine ⟨rfl, h.put hused ha hplace hne (hpaved.around name) ?_ (fun _ _ => rfl) _,
      Nat.le_succ _, Nat.le_refl _⟩
    rw [hpaved.others _ fun pre hpre heq => Files.Tree.under_ne_below hpre heq.symm,
      ← h.shown.objects a ha, hplace, Files.under_concat]
  | ok bytes =>
    obtain ⟨t, hdone, haround, hfile⟩ := replaceFile_ok hwritable htemp hfree hshown
    rw [Call.bind_of_ok hdone]
    have hput : Holds root loc used { d with tree := t, ticket := d.ticket + 1 }
        (m.insert a bytes) := by
      refine h.put hused ha hplace hne haround ?_ (fun a' ha' => ?_) _
      · rw [hfile, ObjectMap.get?_insert, if_pos rfl]
        rfl
      · rw [ObjectMap.get?_insert, if_neg ha']
    exact ⟨rfl, hput, Nat.le_succ _, Nat.le_refl _⟩

theorem create_agree (h : Holds root loc used d m) (hused : Suitable root used)
    (hfresh : Fresh used d.ticket) (ha : a ∈ used) (hroom : Roomy root a) (data : Bytes)
    (uncompressed : Bool) :
    Agree (Follows root loc used d) (create a.1 a.2 data uncompressed d)
      (ObjectMap.put a.1 a.2 data m) := by
  rw [create, Call.get_bind, h.objectPath hused ha, Call.ofExcept_ok, Call.pure_bind]
  exact write_agree (.ok data) h hused hfresh ha hroom fun _ _ _ => fillsWith_writeAll rfl

theorem createFromReader_agree (h : Holds root loc used d m) (hused : Suitable root used)
    (hfresh : Fresh used d.ticket) (ha : a ∈ used) (hroom : Roomy root a) {contents : Reader}
    (hsteady : contents.Steady) :
    Agree (Follows root loc used d) (createFromReader a.1 a.2 contents d)
      (ObjectMap.createFromReader a.1 a.2 contents m) := by
  rw [ObjectMap.createFromReader_eq _ _ hsteady, createFromReader, Call.get_bind,
    h.objectPath hused ha, Call.ofExcept_ok, Call.pure_bind]
  exact write_agree (.ok contents.content) h hused hfresh ha hroom fun _ s _ =>
    fills_copy_of_steady hsteady s

/-- A stream that stalls is waited for until the call is dropped. -/
theorem abandons_createFromReader (h : Holds root loc used d m) (hused : Suitable root used)
    (hfresh : Fresh used d.ticket) (ha : a ∈ used) (hroom : Roomy root a) {contents : Reader}
    (hstalls : contents.drain.stop = .stalled) :
    Call.Abandons (createFromReader a.1 a.2 contents) d := by
  obtain ⟨q, name, hplace, -, hwritable, htemp, hfree⟩ := h.exists_writable hused hfresh ha hroom
  have hreplace := replaceFile_abandoned hwritable htemp hfree fun temp s =>
    (fills_copy contents s).mono (fun _ hdone => ?_) fun halt _ hhalt => ?_
  · rw [← hplace] at hreplace
    obtain ⟨s, hs⟩ := hreplace
    refine ⟨s, ?_⟩
    rw [createFromReader, Call.get_bind, h.objectPath hused ha, Call.ofExcept_ok, Call.pure_bind]
    exact Call.bind_of_error hs
  · rw [Reader.drain_stop, hdone.1] at hstalls
    cases hstalls
  · rw [← Reader.drain_stop, hstalls] at hhalt
    exact (Option.some.inj hhalt.1).symm

/-- All sources are read before the target is written, so it may be one of them. -/
theorem compose_agree (h : Holds root loc used d m) (hused : Suitable root used)
    (hfresh : Fresh used d.ticket) {bucket destination : String} {sources : List String}
    (hsources : ∀ source ∈ sources, (bucket, source) ∈ used)
    (hdestination : (bucket, destination) ∈ used) (hroom : Roomy root (bucket, destination)) :
    Agree (Follows root loc used d) (compose bucket sources destination d)
      (ObjectMap.compose bucket sources destination m) := by
  rw [ObjectMap.compose_eq, compose]
  cases checkSourceCount sources.length with
  | error error => exact ⟨rfl, h.follows⟩
  | ok =>
    have hpaths : d.objectPaths bucket sources = .ok (sources.map fun source =>
        (source, rootBase root ++ placeOf (bucket, source))) := by
      obtain ⟨tree, root', ticket⟩ := d
      obtain rfl : root' = root := h.base
      exact h.shown.objectPaths hused h.text ticket hsources
    rw [Call.ofExcept_ok, Call.pure_bind, Call.get_bind, hpaths, Call.ofExcept_ok, Call.pure_bind,
      Call.get_bind, h.objectPath hused hdestination, Call.ofExcept_ok, Call.pure_bind]
    refine write_agree (m.gather bucket sources) h hused hfresh hdestination hroom fun _ s hs =>
      fillsWith_writeAll ?_
    rw [Call.get_bind, hs.gather hused h.text hsources]

theorem delete_agree (h : Holds root loc used d m) (hused : Suitable root used) (ha : a ∈ used) :
    Agree (Follows root loc used d) (delete a.1 a.2 d)
      (ObjectStore.delete a.1 a.2 m) := by
  obtain ⟨front, name, hplace, -⟩ := exists_placeOf a
  have hplain := (hused.plain a ha).place
  have hobject := h.shown.objects a ha
  have hopen := h.shown.opens a ha
  have htext := hused.checkText ha h.text
  rw [delete_eq (h.objectPath hused ha)]
  rw [hplace] at hplain hobject hopen htext ⊢
  rw [Files.under_concat] at hobject
  have hremove := Files.Tree.removeFile_under h.shown.rooted hplain hopen hobject htext
  rw [hremove]
  cases hget : m.get? a with
  | none =>
    have hobjects : ∀ a' ∈ used,
        d.tree.node? (under loc (placeOf a')) = ((m.erase a).get? a').map .file := by
      intro a' ha'
      rw [h.shown.objects a' ha', ObjectMap.get?_erase]
      by_cases heq : a' = a
      · rw [heq, if_pos rfl, hget]
      · rw [if_neg heq]
    exact ⟨rfl, ⟨h.base, h.text, ⟨h.shown.rooted, h.shown.opens, hobjects⟩, h.known⟩,
      Nat.le_refl _, Nat.le_succ _⟩
  | some content =>
    rw [hget] at hobject
    have hdir : d.tree.node? (under loc (a.1 :: front)) = some .dir :=
      h.shown.rooted.well.above (show d.tree.node? (name :: under loc (a.1 :: front)) ≠ none by
        rw [hobject]
        nofun)
    have haround := ((Paved.refl h.shown.rooted.well hdir).around name).erase
      (by rw [hobject]; nofun)
    have herased : Holds root loc used
        { d with tree := d.tree.erase (name :: under loc (a.1 :: front)) } (m.erase a) := by
      refine h.put hused ha hplace (List.cons_ne_nil _ _) haround ?_ (fun a' ha' => ?_) _
      · rw [Files.Tree.node?_erase_cons, if_pos rfl, ObjectMap.get?_erase, if_pos rfl]
        rfl
      · rw [ObjectMap.get?_erase, if_neg ha']
    exact ⟨rfl, herased, Nat.le_refl _, Nat.le_succ _⟩

theorem read_agree (h : Holds root loc used d m) (hused : Suitable root used) (ha : a ∈ used) :
    Agree (Follows root loc used d) (read a.1 a.2 d) (ObjectMap.read a.1 a.2 m) := by
  rw [read, Call.get_bind, h.objectPath hused ha, Call.ofExcept_ok, Call.pure_bind, Call.get_bind,
    h.shown.contentOf hused ha h.text, ObjectMap.read_eq]
  cases m.get? a with
  | none => exact ⟨rfl, h.follows⟩
  | some content => exact ⟨rfl, h.follows⟩

/-- Every request comes to the same in the directory and on the map. -/
theorem request_agree (h : Holds root loc used d m) (hused : Suitable root used)
    (hfresh : Fresh used d.ticket) {request : Request}
    (haddresses : ∀ a ∈ request.addresses, a ∈ used)
    (hroom : ∀ a ∈ request.targets, Roomy root a)
    (hreaders : ∀ contents ∈ request.readers, contents.Steady) :
    Agree (Follows root loc used d) (request.run d) (request.run m) := by
  cases request with
  | create bucket key data uncompressed =>
    have ha := haddresses _ (List.mem_singleton_self _)
    have hfits := hroom _ (List.mem_singleton_self _)
    exact (create_agree h hused hfresh ha hfits data uncompressed).map Answer.stored
  | createFromReader bucket key contents =>
    have ha := haddresses _ (List.mem_singleton_self _)
    have hsteady := hreaders _ (List.mem_singleton_self _)
    have hfits := hroom _ (List.mem_singleton_self _)
    exact (createFromReader_agree h hused hfresh ha hfits hsteady).map Answer.stored
  | compose bucket sources destination =>
    have hdestination := haddresses (bucket, destination) (List.mem_map_of_mem List.mem_cons_self)
    have hsources : ∀ source ∈ sources, (bucket, source) ∈ used := fun source hsource =>
      haddresses (bucket, source) (List.mem_map_of_mem (List.mem_cons_of_mem _ hsource))
    have hfits := hroom _ (List.mem_singleton_self _)
    exact (compose_agree h hused hfresh hsources hdestination hfits).map Answer.stored
  | delete bucket key =>
    have ha := haddresses _ (List.mem_singleton_self _)
    exact (delete_agree h hused ha).map fun _ => Answer.deleted
  | get bucket key =>
    have ha := haddresses _ (List.mem_singleton_self _)
    exact (read_agree h hused ha).map Answer.content

end ChunkedUpload.Directory
