import ChunkedUpload.Proofs.Storage.Containment
import ChunkedUpload.Proofs.Storage.Sources

/-!
# Writes are all or nothing

A write that answers has put a file with all of the content in the place of one entry; one that
fails has changed no file and no link (`ends_replaceFile`). In both cases nothing else differs but
directories that were missing above the path (`Grows`).
-/

namespace ChunkedUpload.Directory

open Call (Ends)
open Files (Location Node Path Tree)
open Files.Tree (Grows checkText linksMax start)

variable {t t₁ t₂ t₃ : Tree} {root loc : Location} {path above : Path} {name temp : String}
  {content : Bytes}

/-- No file and no link is changed, and no directory is gone. -/
structure Unchanged (t : Tree) (path : Path) (t' : Tree) : Prop where
  well : t'.WellFormed
  grows : Grows t path.Above [] t'

/-- A store below the same root that makes the next temporary name from `ticket`. -/
structure AtTicket (d : Directory) (ticket : Nat) (s : Directory) : Prop where
  root : s.root = d.root
  ticket : s.ticket = ticket

theorem AtTicket.trans {d s s' : Directory} {ticket : Nat} (h : d.AtTicket ticket s)
    (h' : s.AtTicket s.ticket s') : d.AtTicket ticket s' :=
  ⟨h'.root.trans h.root, h'.ticket.trans h.ticket⟩

/-! ## The directories above -/

/-- The directories above `path` are there: the path above leads to `loc`, and if anything was made,
there is nothing in it. -/
structure Readied (t : Tree) (path above : Path) (loc : Location) (t₁ : Tree) : Prop where
  well : t₁.WellFormed
  grows : Grows t path.Above [] t₁
  leads : t₁.LeadsTo above loc
  empty : t₁ = t ∨ ∀ name, t₁.node? (name :: loc) = none

theorem ends_ensureParent {d : Directory} (hwell : d.tree.WellFormed)
    (haccepted : Accepted d.tree root path above name) :
    Ends (ensureParent path) d
      (fun _ s => d.AtTicket d.ticket s ∧ ∃ loc, Readied d.tree path above loc s.tree)
      (fun halt s => d.AtTicket d.ticket s ∧ halt ≠ .abandoned ∧
        Unchanged d.tree path s.tree) := by
  have hgrows : Grows d.tree path.Above [] (d.tree.makeDirAll above).2 :=
    (Files.Tree.makeDirAll_grows above d.tree).mono fun q hq => ⟨above, haccepted.parent, hq⟩
  obtain ⟨pre', name', habove⟩ := haccepted.aboveEnds
  have hmade : (d.tree.makeDirAll above).2.WellFormed ∧
      ((d.tree.makeDirAll above).1 = .ok () → ∃ loc, (d.tree.makeDirAll above).2.LeadsTo above loc ∧
        ((d.tree.makeDirAll above).2 = d.tree ∨
          ∀ name, (d.tree.makeDirAll above).2.node? (name :: loc) = none)) := by
    by_cases hstat : ∃ node, d.tree.lstat path = .ok node
    · obtain ⟨node, hnode⟩ := hstat
      obtain ⟨htext, loc, hleads⟩ := haccepted.leadsTo_of_lstat hnode
      have hall : d.tree.makeDirAll above = (.ok (), d.tree) :=
        Files.Tree.makeDirAllFrom_of_leadsTo _ habove habove.parent? htext hleads
      rw [hall]
      exact ⟨hwell, fun _ => ⟨loc, hleads, .inl rfl⟩⟩
    · obtain ⟨base, hbelow⟩ := haccepted.below
      obtain ⟨depth, found, loc, hnear, hloc, hinside⟩ := haccepted.nearest
      obtain ⟨fuel, hnear'⟩ := nearest?_above hnear haccepted.parent fun node h => hstat ⟨node, h⟩
      have hmade : Made d.tree root above (d.tree.makeDirAll above) :=
        makeDirAllFrom_inside hwell hbelow habove hnear' hloc hinside
      refine ⟨hmade.well, fun hok => ?_⟩
      obtain ⟨loc', hleads, -, hempty⟩ := hmade.done hok
      exact ⟨loc', hleads, hempty⟩
  unfold Ends ensureParent
  rw [haccepted.parent]
  dsimp only
  rcases hall : d.tree.makeDirAll above with ⟨_ | _, tree⟩ <;> rw [hall] at hmade hgrows
  · exact ⟨⟨rfl, rfl⟩, nofun, hmade.1, hgrows⟩
  · obtain ⟨loc, hleads, hempty⟩ := hmade.2 rfl
    exact ⟨⟨rfl, rfl⟩, loc, hmade.1, hgrows, hleads, hempty⟩

theorem Readied.free (h : Readied t path above loc t₁) {other : String}
    (hfresh : t.node? (other :: loc) = none) : t₁.node? (other :: loc) = none := by
  rcases h.empty with rfl | hempty
  · exact hfresh
  · exact hempty other

/-- What the path above leads to is a directory. -/
theorem Readied.isDir (h : Readied t path above loc t₁) : t₁.node? loc = some .dir :=
  h.leads.node?_eq_dir h.well

/-! ## The temporary file -/

/-- `t₂` is `t₁` with a file at `a`. -/
structure Replaced (t₁ : Tree) (a : Location) (content : Bytes) (t₂ : Tree) : Prop where
  here : t₂.here = t₁.here
  file : t₂.node? a = some (.file content)
  others : ∀ b, b ≠ a → t₂.node? b = t₁.node? b

namespace Replaced

variable {a : Location}

theorem insert (ha : a ≠ []) (content : Bytes) :
    Replaced t₁ a content (t₁.insert a (.file content)) := by
  refine ⟨rfl, ?_, fun b hb => ?_⟩
  · rw [Files.Tree.node?_insert, if_pos ⟨ha, rfl⟩]
  · rw [Files.Tree.node?_insert, if_neg fun h => hb h.2]

theorem trans {bytes : Bytes} (h : Replaced t₁ a content t₂) (h' : Replaced t₂ a bytes t₃) :
    Replaced t₁ a bytes t₃ :=
  ⟨h'.here.trans h.here, h'.file, fun b hb => (h'.others b hb).trans (h.others b hb)⟩

/-- Where there was nothing, all is kept. -/
theorem kept (h : Replaced t₁ a content t₂) (hfree : t₁.node? a = none) (b : Location)
    (node : Node) (hb : t₁.node? b = some node) : t₂.node? b = some node := by
  rw [h.others b, hb]
  rintro rfl
  rw [hfree] at hb
  cases hb

/-- Where there was nothing, removing the file leaves what there was. -/
theorem node?_erase (h : Replaced t₁ a content t₂) (hfree : t₁.node? a = none) (b : Location) :
    (t₂.erase a).node? b = t₁.node? b := by
  have ha : a ≠ [] := by
    rintro rfl
    cases hfree
  rw [Files.Tree.node?_erase]
  by_cases hb : b = a
  · rw [if_pos ⟨hb ▸ ha, hb⟩, hb, hfree]
  · rw [if_neg fun hboth => hb hboth.2, h.others b hb]

end Replaced

/-- While it is written, the temporary file is all that is new but directories. -/
theorem Readied.staging (h : Readied t path above loc t₁)
    (hfree : t₁.node? (temp :: loc) = none) (hreplaced : Replaced t₁ (temp :: loc) content t₂) :
    Staging t temp t₂ := by
  refine ⟨hreplaced.here.trans h.grows.here, ?_, ?_⟩
  · intro a node ha
    exact hreplaced.kept hfree a node (h.grows.keeps a node ha)
  · intro a node hnone hsome
    by_cases ha : a = temp :: loc
    · exact .inr (by rw [ha]; rfl)
    · rw [hreplaced.others a ha] at hsome
      exact .inl (h.grows.made List.not_mem_nil hnone hsome).1

/-! ## The new file -/

/-- The entry that `path` names on the way from `t` to `t'`, which has the directories above it if
they were missing. -/
def Names (t t' : Tree) (path : Path) (a : Location) : Prop :=
  ∃ slot, slot.loc = a ∧ (t.slot path = .ok slot ∨
    (∀ other, t.slot path ≠ .ok other) ∧ t'.slot path = .ok slot)

/-- The one entry that `path` names is a file with this content, where there was no directory. That
is what `path` leads to from then on, unless it went through a link that the file has replaced. -/
structure Put (t : Tree) (path : Path) (bytes : Bytes) (a : Location) (t' : Tree) : Prop where
  well : t'.WellFormed
  names : Names t t' path a
  name : path.fileName? = a.head?
  file : t'.node? a = some (.file bytes)
  noDir : t.node? a ≠ some .dir
  grows : Grows t path.Above [a] t'
  entry : t'.entry false path = .ok (a, .file bytes) ∨
    (∃ target, t.node? a = some (.link target)) ∧ ∀ found, t'.entry false path ≠ .ok found

section

variable {pre : Path} {bytes : Bytes}

theorem Readied.grows_of_replaced (h : Readied t path above loc t₁)
    (hreplaced : Replaced t₁ (name :: loc) bytes t₂) :
    Grows t path.Above [name :: loc] t₂ := by
  refine ⟨hreplaced.here.trans h.grows.here, fun ha hnode => ?_, fun {a node} ha hnone hsome => ?_⟩
  · rw [hreplaced.others _ (List.mem_singleton.not.1 ha)]
    exact h.grows.keeps _ _ hnode
  · rw [hreplaced.others _ (List.mem_singleton.not.1 ha)] at hsome
    obtain ⟨hdir, q, hq, hname, hpath, hmissing⟩ := h.grows.made List.not_mem_nil hnone hsome
    refine ⟨hdir, q, hq, hname, ?_, hmissing⟩
    rcases h.empty with rfl | hempty
    · rw [hnone] at hsome
      cases hsome
    · exact Files.Tree.realpath_of_kept hreplaced.here (hreplaced.kept (hempty name)) hpath

theorem Readied.names_of_replaced (h : Readied t path above loc t₁)
    (hends : path.Ends pre name []) (hparent : path.parent? = some above)
    (htext : checkText path = .ok ()) (hreplaced : Replaced t₁ (name :: loc) bytes t₂) :
    Names t t₂ path (name :: loc) := by
  refine ⟨⟨loc, name, false⟩, rfl, ?_⟩
  rcases Files.Tree.leads_or_blocked t linksMax (start t.here path) pre with
    ⟨k, d, hpre⟩ | ⟨error, hblocked⟩
  · have hleads : t.LeadsTo above d := (Files.Tree.leadsTo_parent hends hparent).2 ⟨k, hpre⟩
    obtain rfl := (hleads.of_kept h.grows.here h.grows.keeps).unique h.leads
    exact .inl (Files.Tree.slot_of_leadsTo hends hparent htext hleads)
  · have hslot := Files.Tree.slot_of_blocked hends htext hblocked
    refine .inr ⟨fun other hother => ?_, Files.Tree.slot_of_leadsTo hends hparent htext ?_⟩
    · rw [hslot] at hother
      cases hother
    · rcases h.empty with rfl | hempty
      · obtain ⟨k, hpre⟩ := (Files.Tree.leadsTo_parent hends hparent).1 h.leads
        exact (hpre.not_blocked hblocked).elim
      · exact h.leads.of_kept hreplaced.here (hreplaced.kept (hempty name))

/-- The path leads to the new file, unless it went through a link that the file has replaced: then
it leads nowhere. -/
theorem Readied.entry_of_replaced (h : Readied t path above loc t₁)
    (hends : path.Ends pre name []) (hup : name ≠ "..") (hparent : path.parent? = some above)
    (htext : checkText path = .ok ()) (hfits : name.utf8ByteSize ≤ Files.Tree.nameMax)
    (hreplaced : Replaced t₁ (name :: loc) bytes t₂) (hdir : t₁.node? (name :: loc) ≠ some .dir) :
    t₂.entry false path = .ok (name :: loc, .file bytes) ∨
      (∃ target, t.node? (name :: loc) = some (.link target)) ∧
        ∀ found, t₂.entry false path ≠ .ok found := by
  rcases Files.Tree.leads_or_blocked t₂ linksMax (start t₂.here path) pre with
    ⟨k, d, hpre⟩ | ⟨error, hblocked⟩
  · -- a walk to a directory does not pass a file, so it was the same before
    have hpre₁ : Files.Tree.Leads t₁ linksMax (start t₁.here path) pre k d := by
      rw [← hreplaced.here]
      refine hpre.mono fun a node ha hfile => ?_
      rw [← hreplaced.others, ha]
      rintro rfl
      rw [hreplaced.file] at ha
      exact hfile bytes (Option.some.inj ha).symm
    obtain rfl := h.leads.unique ((Files.Tree.leadsTo_parent hends hparent).2 ⟨k, hpre₁⟩)
    have hwalk : t₂.locateFrom false linksMax (start t₂.here path) (pre ++ [name]) =
        t₂.locateFrom false k loc [name] := hpre.locateFrom (.inl (List.cons_ne_nil _ _))
    rw [← hends.eq, Files.Tree.locateFrom_file ⟨hends.name, hup⟩ hfits hreplaced.file,
      if_pos rfl] at hwalk
    rw [Files.Tree.entry_eq htext, hwalk]
    exact .inl rfl
  · refine .inr ⟨?_, fun found hfound => ?_⟩
    · by_contra hlink
      obtain ⟨k, hpre⟩ := (Files.Tree.leadsTo_parent hends hparent).1 h.leads
      have hpre₂ : Files.Tree.Leads t₂ linksMax (start t₂.here path) pre k loc := by
        rw [hreplaced.here]
        refine hpre.mono fun a node ha hfile => ?_
        rw [hreplaced.others, ha]
        rintro rfl
        rcases h.empty with rfl | hempty
        · cases node with
          | dir => exact hdir ha
          | file old => exact hfile old rfl
          | link target => exact hlink ⟨target, ha⟩
        · rw [hempty name] at ha
          cases ha
      exact hpre₂.not_blocked hblocked
    · have hwalk := hblocked.2 false [name] (List.cons_ne_nil _ _)
      rw [← hends.eq] at hwalk
      rw [Files.Tree.entry_eq htext, hwalk] at hfound
      cases hfound

/-- Moving the temporary file into place gives the new file and nothing else. -/
theorem Readied.put {ticket : Nat} {t₀ t₃ t₄ : Tree}
    (h : Readied t path above loc t₁) (haccepted : Accepted t₀ root path above name)
    (hfree : t₁.node? (Files.TempName.of name ticket :: loc) = none)
    (hstaged : Replaced t₁ (Files.TempName.of name ticket :: loc) bytes t₃)
    (hrename : t₃.rename (tempOf path ticket) path = .ok t₄) :
    Put t path bytes (name :: loc) t₄ := by
  obtain ⟨hends, hparent⟩ := haccepted.temp ticket
  obtain ⟨pre, trail, hpath⟩ := haccepted.ends
  have hleads : t₃.LeadsTo above loc := h.leads.of_kept hstaged.here (hstaged.kept hfree)
  obtain ⟨dS, dT, node, hleadsS, hleadsT, hnode, rfl, rfl, htext, hdir, hfits⟩ :=
    Files.Tree.rename_ok_onto hends hparent hpath haccepted.parent hrename
  obtain rfl := hleads.unique hleadsS
  obtain rfl := hleads.unique hleadsT
  rw [hstaged.file] at hnode
  cases hnode
  have hother : name :: loc ≠ Files.TempName.of name ticket :: loc := by
    intro heq
    have hsize := congrArg String.utf8ByteSize (List.cons.inj heq).1
    rw [Files.TempName.utf8ByteSize_of] at hsize
    omega
  rw [hstaged.others _ hother] at hdir
  have hreplaced : Replaced t₁ (name :: loc) bytes
      ((t₃.erase (Files.TempName.of name ticket :: loc)).insert (name :: loc) (.file bytes)) := by
    have hinsert : Replaced (t₃.erase (Files.TempName.of name ticket :: loc)) (name :: loc) bytes
        _ := .insert (List.cons_ne_nil name loc) bytes
    refine ⟨hstaged.here, hinsert.file, fun b hb => ?_⟩
    rw [hinsert.others b hb, hstaged.node?_erase hfree]
  exact {
    well := h.well.of_leaf h.isDir hdir hreplaced.here hreplaced.others
    names := h.names_of_replaced hpath haccepted.parent htext hreplaced
    name := hpath.fileName? haccepted.name
    file := hreplaced.file
    noDir := fun hnode => hdir (h.grows.keeps _ _ hnode)
    grows := h.grows_of_replaced hreplaced
    entry := h.entry_of_replaced hpath haccepted.name haccepted.parent htext hfits hreplaced hdir }

end

/-! ## The whole write -/

/-- Nothing is changed but for a file of a temporary name, where there was nothing. -/
structure Leftover (t : Tree) (path : Path) (temp : String) (loc : Location) (content : Bytes)
    (t' : Tree) : Prop where
  well : t'.WellFormed
  free : t.node? (temp :: loc) = none
  file : t'.node? (temp :: loc) = some (.file content)
  grows : Grows t path.Above [temp :: loc] t'

theorem Readied.unchanged (h : Readied t path above loc t₁) (hhere : t₂.here = t₁.here)
    (hsame : ∀ a, t₂.node? a = t₁.node? a) : Unchanged t path t₂ := by
  refine ⟨⟨?_, fun {other l} hsome => ?_⟩, h.grows.congr hhere hsame⟩
  · rw [hsame, hhere]
    exact h.well.here
  · rw [hsame] at hsome ⊢
    exact h.well.above hsome

theorem Readied.leftover (h : Readied t path above loc t₁) (hfree : t.node? (temp :: loc) = none)
    (hreplaced : Replaced t₁ (temp :: loc) content t₂) : Leftover t path temp loc content t₂ := by
  have hfree₁ := h.free hfree
  refine ⟨?_, hfree, hreplaced.file, h.grows_of_replaced hreplaced⟩
  exact h.well.of_leaf h.isDir (by rw [hfree₁]; nofun) hreplaced.here hreplaced.others

section

variable {d s : Directory} {wanted cut : Bytes → Prop}

/-- Discarding the temporary file leaves what was there before it. -/
theorem Readied.discardTemp {t₀ : Tree} {ticket : Nat} (h : Readied t path above loc t₁)
    (haccepted : Accepted t₀ root path above name)
    (htext : checkText (tempOf path ticket) = .ok ())
    (hfits : (Files.TempName.of name ticket).utf8ByteSize ≤ Files.Tree.nameMax)
    (hfree : t₁.node? (Files.TempName.of name ticket :: loc) = none)
    (hreplaced : Replaced t₁ (Files.TempName.of name ticket :: loc) content s.tree) :
    s.AtTicket s.ticket (Directory.discardTemp (tempOf path ticket) s) ∧
      Unchanged t path (Directory.discardTemp (tempOf path ticket) s).tree := by
  obtain ⟨hends, hparent⟩ := haccepted.temp ticket
  have hleads : s.tree.LeadsTo above loc := h.leads.of_kept hreplaced.here (hreplaced.kept hfree)
  have hremove := Files.Tree.removeFile_of_leadsTo hends (Files.TempName.isName_of name ticket).2
    hparent htext hleads hfits hreplaced.file
  unfold Directory.discardTemp
  rw [hremove]
  exact ⟨⟨rfl, rfl⟩, h.unchanged hreplaced.here fun a => hreplaced.node?_erase hfree a⟩

/-- The temporary file is made. -/
theorem ends_makeTemp {t₀ : Tree} {ticket : Nat} (haccepted : Accepted t₀ root path above name)
    (hleads : s.tree.LeadsTo above loc)
    (hfree : s.tree.node? (Files.TempName.of name ticket :: loc) = none) :
    Ends (onTree (Tree.writeFile (tempOf path ticket) [])) s
      (fun _ s' => s.AtTicket s.ticket s' ∧ checkText (tempOf path ticket) = .ok () ∧
        (Files.TempName.of name ticket).utf8ByteSize ≤ Files.Tree.nameMax ∧
        Replaced s.tree (Files.TempName.of name ticket :: loc) [] s'.tree)
      (fun halt s' => s' = s ∧ halt ≠ .abandoned) := by
  obtain ⟨hends, hparent⟩ := haccepted.temp ticket
  refine ends_onTree (fun tree hwrite => ⟨⟨rfl, rfl⟩, ?_⟩) fun error _ => ⟨rfl, nofun⟩
  obtain ⟨htext, hfits, rfl⟩ := Files.Tree.writeFile_ok_onto hends
    (Files.TempName.isName_of name ticket).2 hparent hleads (by rw [hfree]; nofun) hwrite
  exact ⟨htext, hfits, .insert (List.cons_ne_nil _ _) []⟩

/-- However often it is written, the temporary file is all that differs. -/
theorem Readied.replaced_of_written {t₀ : Tree} {ticket : Nat} {s' : Directory}
    (h : Readied t path above loc t₁) (haccepted : Accepted t₀ root path above name)
    (hfree : t₁.node? (Files.TempName.of name ticket :: loc) = none)
    (hreplaced : Replaced t₁ (Files.TempName.of name ticket :: loc) [] s.tree)
    (hwritten : Written (tempOf path ticket) s content s') :
    s.AtTicket s.ticket s' ∧
      Replaced t₁ (Files.TempName.of name ticket :: loc) content s'.tree := by
  obtain ⟨hends, hparent⟩ := haccepted.temp ticket
  induction hwritten with
  | start => exact ⟨⟨rfl, rfl⟩, hreplaced⟩
  | @write old next t' tree _ hwrite ih =>
    obtain ⟨hat, hold⟩ := ih
    have hleads : t'.tree.LeadsTo above loc := h.leads.of_kept hold.here (hold.kept hfree)
    have hfile : ∀ node, t'.tree.node? (Files.TempName.of name ticket :: loc) = some node →
        ∃ old, node = .file old := fun node hnode =>
      ⟨old, Option.some.inj (hnode.symm.trans hold.file)⟩
    obtain ⟨-, -, rfl⟩ := Files.Tree.writeFile_ok_onto hends
      (Files.TempName.isName_of name ticket).2 hparent hleads hfile hwrite
    exact ⟨⟨hat.root, hat.ticket⟩, hold.trans (.insert (List.cons_ne_nil _ _) next)⟩

/-- The temporary file is filled and moved into place. As long as that is not done, it is all that
differs. -/
theorem Readied.ends_move {t₀ : Tree} {ticket : Nat} {fill : Call Directory Nat}
    (h : Readied t path above loc t₁) (haccepted : Accepted t₀ root path above name)
    (hfree : t₁.node? (Files.TempName.of name ticket :: loc) = none)
    (hreplaced : Replaced t₁ (Files.TempName.of name ticket :: loc) [] s.tree)
    (hfill : Fills (tempOf path ticket) fill s wanted fun halt content =>
      halt = .abandoned → cut content) :
    Ends
      (do
        let size ← fill
        onTree (Tree.rename (tempOf path ticket) path)
        pure size) s
      (fun size s' => s.AtTicket s.ticket s' ∧
        ∃ bytes a, wanted bytes ∧ size = bytes.length ∧ Put t path bytes a s'.tree)
      (fun halt s' => s.AtTicket s.ticket s' ∧
        ∃ content, Replaced t₁ (Files.TempName.of name ticket :: loc) content s'.tree ∧
          (halt = .abandoned → cut content)) := by
  refine Ends.andThen hfill ?_ ?_
  · rintro halt s₁ ⟨content, hwritten, hhalt⟩
    obtain ⟨hs₁, hreplaced₁⟩ := h.replaced_of_written haccepted hfree hreplaced hwritten
    refine ⟨hs₁, content, hreplaced₁, fun habandoned => ?_⟩
    rcases hhalt with hcut | ⟨bytes, error, -, rfl⟩
    · exact hcut habandoned
    · cases habandoned
  rintro size s₁ ⟨bytes, hwanted, rfl, hwritten⟩
  obtain ⟨hs₁, hreplaced₁⟩ := h.replaced_of_written haccepted hfree hreplaced hwritten
  have hmove : Ends (onTree (Tree.rename (tempOf path ticket) path)) s₁
      (fun _ s' => s₁.AtTicket s₁.ticket s' ∧ Put t path bytes (name :: loc) s'.tree)
      (fun halt s' => s' = s₁ ∧ halt ≠ .abandoned) := by
    refine ends_onTree (fun tree htree => ⟨⟨rfl, rfl⟩, ?_⟩) fun error _ => ⟨rfl, nofun⟩
    exact h.put haccepted hfree hreplaced₁ htree
  refine hmove.andThen ?_ ?_
  · rintro halt _ ⟨rfl, hhalt⟩
    exact ⟨hs₁, bytes, hreplaced₁, fun h => absurd h hhalt⟩
  · rintro _ s₂ ⟨hs₂, hput⟩
    refine Ends.pure ⟨hs₁.trans ?_, bytes, _, hwanted, rfl, hput⟩
    exact hs₂

/-- If anything fails, the temporary file goes. Only a call that is abandoned leaves it. -/
theorem ends_replaceFile {fill : Path → Call Directory Nat} (hwell : d.tree.WellFormed)
    (hfresh : d.FreshTicket) (haccepted : Accepted d.tree root path above name)
    (hfill : ∀ (temp : Path) (s : Directory),
      Staging d.tree (Files.TempName.of name d.ticket) s.tree →
        Fills temp (fill temp) s wanted fun halt content => halt = .abandoned → cut content) :
    Ends (replaceFile path fill) d
      (fun size s => d.AtTicket (d.ticket + 1) s ∧
        ∃ bytes a, wanted bytes ∧ size = bytes.length ∧ Put d.tree path bytes a s.tree)
      (fun halt s =>
        halt ≠ .abandoned ∧ (d.AtTicket d.ticket s ∨ d.AtTicket (d.ticket + 1) s) ∧
            Unchanged d.tree path s.tree ∨
          halt = .abandoned ∧ d.AtTicket (d.ticket + 1) s ∧ ∃ loc content, cut content ∧
            Leftover d.tree path (Files.TempName.of name d.ticket) loc content s.tree) := by
  refine (ends_ensureParent hwell haccepted).andThen ?_ ?_
  · rintro halt s ⟨hs, hhalt, hunchanged⟩
    exact .inl ⟨hhalt, .inl hs, hunchanged⟩
  rintro _ s₁ ⟨hs₁, loc, hready⟩
  have hfree := hready.free (hfresh name loc)
  have htemp : Ends (tempPath path) s₁
      (fun temp s => temp = tempOf path d.ticket ∧ d.AtTicket (d.ticket + 1) s ∧ s.tree = s₁.tree)
      (fun _ _ => False) := by
    rw [← hs₁.ticket]
    exact ⟨rfl, ⟨hs₁.root, rfl⟩, rfl⟩
  refine htemp.andThen (fun _ _ h => h.elim) ?_
  rintro _ s ⟨rfl, hs, htree⟩
  have hleads : s.tree.LeadsTo above loc := htree ▸ hready.leads
  refine (ends_makeTemp haccepted hleads (htree ▸ hfree)).andThen ?_ ?_
  · rintro halt _ ⟨rfl, hhalt⟩
    exact .inl ⟨hhalt, .inr hs, htree ▸ hready.unchanged rfl fun _ => rfl⟩
  rintro _ s₂ ⟨hs₂, htext, hfits, hreplaced⟩
  replace hs₂ := hs.trans hs₂
  rw [htree] at hreplaced
  refine (Ends.onFailure (hready.ends_move haccepted hfree hreplaced
    (hfill _ s₂ (hready.staging hfree hreplaced))) ?_ ?_).mono ?_ fun _ _ h => h
  · rintro error s ⟨hs, content, hreplaced, -⟩
    obtain ⟨hdiscard, hunchanged⟩ := hready.discardTemp haccepted htext hfits hfree hreplaced
    exact .inl ⟨nofun, .inr ((hs₂.trans hs).trans hdiscard), hunchanged⟩
  · rintro s ⟨hs, content, hreplaced, hcut⟩
    exact .inr ⟨rfl, hs₂.trans hs, loc, content, hcut rfl,
      hready.leftover (hfresh name loc) hreplaced⟩
  · rintro size s ⟨hs, hput⟩
    exact ⟨hs₂.trans hs, hput⟩

end

end ChunkedUpload.Directory
