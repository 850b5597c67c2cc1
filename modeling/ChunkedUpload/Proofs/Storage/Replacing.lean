import ChunkedUpload.Proofs.Files.TempNames
import ChunkedUpload.Proofs.Storage.ObjectPaths
import ChunkedUpload.Proofs.Storage.Streaming

/-!
# How a file is replaced

A write first makes the directories above its path: where the nearest entry is inside the root, they
all are (`makeDirAllFrom_inside`). Then a temporary file is made, filled and moved into place, which
touches entries of the one directory that the path above leads to and the temporary file in any case
(`ends_write`).
-/

namespace ChunkedUpload.Directory

open Files (Location Node Path Tree)
open Files.Path (isBlank)
open Files.Tree (Leads Edits checkText linksMax start makeDirAllFrom)

variable {t : Tree} {root : Location} {base p pre above : Path} {name : String}

/-! ## Making the directories above -/

/-- What making directories up to `p` did: everything inside the root, and if it succeeds `p` leads
to a directory there that was there before or is empty. -/
structure Made (t : Tree) (root : Location) (p : Path)
    (outcome : Except IoError Unit × Tree) : Prop where
  inside : ∃ places, Edits t places outcome.2 ∧ ∀ a ∈ places, root <:+ a
  well : outcome.2.WellFormed
  done : outcome.1 = .ok () → ∃ d, outcome.2.LeadsTo p d ∧ root <:+ d ∧
    (outcome.2 = t ∨ ∀ name, outcome.2.node? (name :: d) = none)

theorem Made.unchanged {error : IoError} (hwell : t.WellFormed) : Made t root p (.error error, t) :=
  ⟨⟨[], .refl t, nofun⟩, hwell, nofun⟩

/-- Where an entry is asked about its own nearest one, that is itself. -/
theorem loc_of_nearest? {fuel : Nat} {found : Path × Node} {loc d : Location}
    (hnear : nearest? t fuel p = .ok (some found)) (hloc : t.realpath found.1 = .ok loc)
    (htext : checkText p = .ok ()) (hleads : t.LeadsTo p d) : loc = d := by
  obtain ⟨node, hnode⟩ := Files.Tree.lstat_of_leadsTo htext hleads
  rcases nearest?_eq_some hnear with ⟨-, hown⟩ | ⟨⟨error, herror, -⟩, -⟩
  · rw [hown, Files.Tree.realpath_of_leadsTo htext hleads] at hloc
    exact (Except.ok.inj hloc).symm
  · rw [hnode] at herror
    cases herror

/-- Nothing is made where there is an entry. -/
theorem Made.existing {error : IoError} {fuel : Nat} {found : Path × Node} {loc : Location}
    (hwell : t.WellFormed) (hnear : nearest? t fuel p = .ok (some found))
    (hloc : t.realpath found.1 = .ok loc) (hinside : root <:+ loc) :
    Made t root p (if t.isDir p then .ok () else .error error, t) := by
  refine ⟨⟨[], .refl t, nofun⟩, hwell, fun hdone => ?_⟩
  by_cases hdir : t.isDir p = true
  · obtain ⟨htext, d, hleads⟩ := Files.Tree.isDir_iff.1 hdir
    exact ⟨d, hleads, loc_of_nearest? hnear hloc htext hleads ▸ hinside, .inl rfl⟩
  · dsimp only at hdone
    rw [if_neg hdir] at hdone
    cases hdone

theorem Made.insert {t₀ : Tree} {d : Location} {places : List Location}
    (hedits : Edits t₀ places t) (hplaces : ∀ a ∈ places, root <:+ a) (hwell : t.WellFormed)
    (hends : p.Ends pre name []) (hup : name ≠ "..") (hparent : p.parent? = some above)
    (hleads : t.LeadsTo above d) (hfits : ¬Files.Tree.nameMax < name.utf8ByteSize)
    (hinside : root <:+ d) (hnone : t.node? (name :: d) = none) :
    Made t₀ root p (.ok (), t.insert (name :: d) .dir) := by
  obtain ⟨k, hpre⟩ := (Files.Tree.leadsTo_parent hends hparent).1 hleads
  have hstart : t.node? (start t.here p) = some .dir := by
    rw [start]
    split
    · exact Files.Tree.node?_nil t
    · exact hwell.here
  have hd : t.node? d = some .dir := hpre.node?_eq_dir hwell hstart
  have hkept : ∀ a node, t.node? a = some node → (∀ content, node ≠ .file content) →
      (t.insert (name :: d) .dir).node? a = some node := by
    intro a node ha _
    rw [Files.Tree.node?_insert, if_neg, ha]
    rintro ⟨-, rfl⟩
    rw [hnone] at ha
    cases ha
  have hnew : root <:+ name :: d := hinside.trans (List.suffix_cons name d)
  refine ⟨⟨[name :: d] ++ places, hedits.trans (.insert t _ _), fun a ha => ?_⟩,
    hwell.insert_dir hd, fun _ => ⟨name :: d, ?_, hnew, .inr fun other => ?_⟩⟩
  · rcases List.mem_append.1 ha with ha | ha
    · rw [List.mem_singleton.1 ha]
      exact hnew
    · exact hplaces a ha
  · have hnode : (t.insert (name :: d) .dir).node? (name :: d) = some .dir := by
      rw [Files.Tree.node?_insert, if_pos ⟨List.cons_ne_nil _ _, rfl⟩]
    have hwalk := (hpre.mono hkept).append
      (.down ⟨hends.name, hup⟩ (Nat.not_lt.1 hfits) hnode .nil)
    rw [← hends.eq] at hwalk
    exact ⟨k, hwalk⟩
  · have hchild : t.node? (other :: name :: d) = none := by
      by_contra hsome
      rw [hwell.above hsome] at hnone
      cases hnone
    rw [Files.Tree.node?_insert, if_neg, hchild]
    rintro ⟨-, heq⟩
    exact absurd (congrArg List.length heq) (by simp)

/-- A name that is too long, or that the directory does not have, leads nowhere. -/
theorem not_leadsTo {d : Location} (hends : p.Ends pre name []) (hup : name ≠ "..")
    (hparent : p.parent? = some above) (hleads : t.LeadsTo above d)
    (hmissing : Files.Tree.nameMax < name.utf8ByteSize ∨ t.node? (name :: d) = none)
    (e : Location) : ¬t.LeadsTo p e := by
  rintro ⟨k, hp⟩
  obtain ⟨j, hpre⟩ := (Files.Tree.leadsTo_parent hends hparent).1 hleads
  have hname : Path.IsName name := ⟨hends.name, hup⟩
  have hwalk : t.locateFrom true linksMax (start t.here p) (pre ++ [name]) =
      t.locateFrom true j d [name] := hpre.locateFrom (.inr rfl)
  rw [← hends.eq, hp.found] at hwalk
  by_cases hlong : Files.Tree.nameMax < name.utf8ByteSize
  · rw [Files.Tree.locateFrom_long hname hlong] at hwalk
    cases hwalk
  · rw [Files.Tree.locateFrom_missing hname (Nat.not_lt.1 hlong)
      (hmissing.resolve_left hlong)] at hwalk
    cases hwalk

/-- Making directories is done after the first attempt, or the path above is missing, too. -/
theorem made_or_missing {depth fuel : Nat} {found : Path × Node} {loc : Location}
    (hwell : t.WellFormed) (hbelow : Below t root base p) (hends : p.Ends pre name [])
    (hup : name ≠ "..") (hparent : p.parent? = some above)
    (hnear : nearest? t fuel p = .ok (some found)) (hloc : t.realpath found.1 = .ok loc)
    (hinside : root <:+ loc) :
    Made t root p (makeDirAllFrom depth p t) ∨
      t.makeDir p = .error (.system .missing) ∧ checkText p = .ok () ∧
        (∀ d, ¬t.LeadsTo above d) ∧ ∃ fuel', nearest? t fuel' above = .ok (some found) := by
  have hempty := hends.isEmpty
  obtain ⟨hsome, -⟩ := hbelow.parent hends hparent
  have hsettled : ∀ error : IoError, t.makeDir p = .error error → error.kind ≠ .notFound →
      Made t root p (makeDirAllFrom depth p t) := by
    intro error herror hkind
    rw [Files.Tree.makeDirAllFrom_of_error depth hempty herror hkind]
    exact .existing hwell hnear hloc hinside
  cases htext : checkText p with
  | error error =>
    exact .inl (hsettled error (Files.Tree.makeDir_of_bad_slot (Files.Tree.slot_of_bad_text htext))
      (Files.Tree.kind_of_bad_text hempty htext))
  | ok =>
    rcases Files.Tree.leads_or_blocked t linksMax (start t.here p) pre with
      ⟨k, d, hpre⟩ | ⟨error, hblocked⟩
    · have hleads : t.LeadsTo above d := (Files.Tree.leadsTo_parent hends hparent).2 ⟨k, hpre⟩
      have hmake := Files.Tree.makeDir_eq hends hup hparent htext hleads
      by_cases hlong : Files.Tree.nameMax < name.utf8ByteSize
      · rw [if_pos hlong] at hmake
        exact .inl (hsettled _ hmake (by decide))
      · rw [if_neg hlong] at hmake
        cases hnode : t.node? (name :: d) with
        | some node =>
          rw [hnode] at hmake
          exact .inl (hsettled _ hmake (by decide))
        | none =>
          rw [hnode] at hmake
          -- the path has no entry, so the nearest one is the directory above
          have hmissing : ∀ other, t.lstat p ≠ .ok other := by
            rw [Files.Tree.lstat_of_vacant hends hup hparent htext hleads (Nat.not_lt.1 hlong) hnode]
            exact nofun
          obtain ⟨fuel', hnear'⟩ := nearest?_above hnear hparent hmissing
          have htext' := Files.Tree.checkText_parent hends hparent htext hsome
          rw [Files.Tree.makeDirAllFrom_of_ok depth hempty hmake]
          have hnone : ∀ a ∈ ([] : List Location), root <:+ a := List.forall_mem_nil _
          exact .inl (.insert (.refl t) hnone hwell hends hup hparent hleads hlong
            (loc_of_nearest? hnear' hloc htext' hleads ▸ hinside) hnode)
    · have hmake := Files.Tree.makeDir_of_bad_slot
        (Files.Tree.slot_of_blocked hends htext hblocked)
      by_cases hmissing : error = .missing
      · subst hmissing
        refine .inr ⟨hmake, rfl, fun d hleads => ?_, ?_⟩
        · obtain ⟨k, hpre⟩ := (Files.Tree.leadsTo_parent hends hparent).1 hleads
          exact hpre.not_blocked hblocked
        · refine nearest?_above hnear hparent fun other hstat => ?_
          rw [Files.Tree.lstat_of_blocked hends htext hblocked] at hstat
          cases hstat
      · refine .inl (hsettled _ hmake fun hkind => hmissing ?_)
        cases error <;> first | rfl | cases hkind

/-- Directories that are missing up to `p` are made inside the root, if the nearest entry is
inside. -/
theorem makeDirAllFrom_inside (hwell : t.WellFormed) :
    ∀ {depth fuel : Nat} {p pre : Path} {name : String} {found : Path × Node} {loc : Location},
      Below t root base p → p.Ends pre name [] → nearest? t fuel p = .ok (some found) →
      t.realpath found.1 = .ok loc → root <:+ loc → Made t root p (makeDirAllFrom depth p t) := by
  intro depth
  induction depth with
  | zero =>
    intro fuel p pre name found loc hbelow hends hnear hloc hinside
    have hup := hbelow.name_ne_up hends
    rcases made_or_missing hwell hbelow hends hup hends.parent? hnear hloc hinside with
      hmade | ⟨hmake, -⟩
    · exact hmade
    · rw [Files.Tree.makeDirAllFrom_zero hends.isEmpty hmake]
      exact .unchanged hwell
  | succ depth ih =>
    intro fuel p pre name found loc hbelow hends hnear hloc hinside
    have hup := hbelow.name_ne_up hends
    obtain ⟨above, hparent⟩ : ∃ above, p.parent? = some above := ⟨_, hends.parent?⟩
    rcases made_or_missing hwell hbelow hends hup hparent hnear hloc hinside with
      hmade | ⟨hmake, htext, hnowhere, fuel', hnear'⟩
    · exact hmade
    · obtain ⟨-, hroot | ⟨hbelow', -, pre', name', hends'⟩⟩ := hbelow.parent hends hparent
      · exact absurd hroot (hnowhere root)
      · rw [Files.Tree.makeDirAllFrom_succ hends.isEmpty hmake hparent]
        have hmade : Made t root above (makeDirAllFrom depth above t) :=
          ih hbelow' hends' hnear' hloc hinside
        rcases hall : makeDirAllFrom depth above t with ⟨_ | _, t'⟩ <;> rw [hall] at hmade
        · exact ⟨hmade.inside, hmade.well, nofun⟩
        · obtain ⟨places, hedits, hplaces⟩ := hmade.inside
          obtain ⟨d, hleads, hd, hsame | hempty⟩ := hmade.done rfl
          · exact absurd (hsame ▸ hleads) (hnowhere d)
          · have hmake' := Files.Tree.makeDir_eq hends hup hparent htext hleads
            rw [hempty name] at hmake'
            dsimp only
            by_cases hlong : Files.Tree.nameMax < name.utf8ByteSize
            · have hdir : t'.isDir p = false := by
                rw [Bool.eq_false_iff, ne_eq, Files.Tree.isDir_iff]
                rintro ⟨-, e, he⟩
                exact not_leadsTo hends hup hparent hleads (.inl hlong) e he
              rw [if_pos hlong] at hmake'
              rw [hmake']
              dsimp only
              rw [hdir]
              exact ⟨⟨places, hedits, hplaces⟩, hmade.well, nofun⟩
            · rw [if_neg hlong] at hmake'
              rw [hmake']
              exact .insert hedits hplaces hmade.well hends hup hparent hleads hlong hd
                (hempty name)

/-! ## The temporary file -/

/-- The path of the temporary file for `p`. -/
def tempOf (p : Path) (ticket : Nat) : Path :=
  p.withFileName (Files.TempName.of (p.fileName?.getD "") ticket)

theorem Accepted.temp {path : Path} (h : Accepted t root path above name) (ticket : Nat) :
    (tempOf path ticket).Ends above (Files.TempName.of name ticket) [] ∧
      (tempOf path ticket).parent? = some above := by
  obtain ⟨pre, trail, hends⟩ := h.ends
  obtain ⟨pre', name', habove⟩ := h.aboveEnds
  have hlast : above.getLast? ≠ some "" := by
    rw [habove.eq, List.getLast?_concat]
    exact fun heq => habove.name_ne_empty (Option.some.inj heq)
  have htemp : tempOf path ticket = above ++ [Files.TempName.of name ticket] := by
    rw [tempOf, hends.fileName? h.name, Option.getD_some]
    exact Files.Path.withFileName_eq hends h.name h.parent hlast _
  have hends' : (tempOf path ticket).Ends above (Files.TempName.of name ticket) [] :=
    ⟨htemp, (Files.TempName.isName_of name ticket).1, nofun⟩
  have hdrop : Files.Path.dropEnd isBlank above = above := by
    rw [habove.dropEnd]
    exact habove.eq.symm
  have hsome : above ≠ [] := by
    rw [habove.eq]
    simp
  refine ⟨hends', ?_⟩
  rw [hends'.parent?, hdrop, if_neg hsome]

/-- Since `t`, only entries of the directory `d` were touched, `temp` among them. -/
def Beside (t : Tree) (d temp : Location) (s : Directory) : Prop :=
  ∃ places, Edits t places s.tree ∧ temp ∈ places ∧ ∀ a ∈ places, ∃ name, a = name :: d

theorem Beside.trans {d temp : Location} {s : Directory} {t' : Tree} {places : List Location}
    (h : Beside t d temp s) (hedits : Edits s.tree places t')
    (hplaces : ∀ a ∈ places, ∃ name, a = name :: d) : Beside t d temp { s with tree := t' } := by
  obtain ⟨before, hbefore, htemp, hall⟩ := h
  refine ⟨places ++ before, hbefore.trans hedits, List.mem_append_right _ htemp, fun a ha => ?_⟩
  rcases List.mem_append.1 ha with ha | ha
  · exact hplaces a ha
  · exact hall a ha

open Call (Ends)

theorem ends_onTree {operation : Tree → Except IoError Tree} {s : Directory}
    {good : Unit → Directory → Prop} {bad : Halt → Directory → Prop}
    (hgood : ∀ tree, operation s.tree = .ok tree → good () { s with tree })
    (hbad : ∀ error, operation s.tree = .error error → bad (.failed (.io error)) s) :
    Ends (onTree operation) s good bad := by
  unfold Ends onTree
  cases h : operation s.tree with
  | ok tree => exact hgood tree h
  | error error => exact hbad error h

/-- Writing the content of a file leads nowhere else. -/
theorem leadsTo_insert_file {t : Tree} {d loc : Location} {content : Bytes}
    (h : t.LeadsTo above d)
    (hnode : ∀ node, t.node? loc = some node → ∃ old, node = .file old) :
    (t.insert loc (.file content)).LeadsTo above d := by
  obtain ⟨k, h⟩ := h
  refine ⟨k, h.mono fun a node ha hfile => ?_⟩
  rw [Files.Tree.node?_insert, if_neg, ha]
  rintro ⟨-, rfl⟩
  obtain ⟨old, rfl⟩ := hnode node ha
  exact hfile old rfl

section
variable {path : Path} {d : Location} {s : Directory} {ticket : Nat} {t₀ : Tree}

theorem Beside.discardTemp (haccepted : Accepted t₀ root path above name)
    (h : Beside t d (Files.TempName.of name ticket :: d) s) (hleads : s.tree.LeadsTo above d) :
    Beside t d (Files.TempName.of name ticket :: d)
      (Directory.discardTemp (tempOf path ticket) s) := by
  obtain ⟨hends, hparent⟩ := haccepted.temp ticket
  unfold Directory.discardTemp
  cases hremove : s.tree.removeFile (tempOf path ticket) with
  | error error => exact h
  | ok tree =>
    obtain ⟨d', node, hleads', -, -, -, rfl⟩ := Files.Tree.removeFile_eq_ok hends hparent hremove
    obtain rfl := hleads.unique hleads'
    exact h.trans (.erase _ _) fun a ha => ⟨_, List.mem_singleton.1 ha⟩

/-- Writes to the temporary file touch it alone, and the path above still leads to its
directory. -/
theorem Beside.of_written {content : Bytes} {s' : Directory}
    (haccepted : Accepted t₀ root path above name)
    (h : Beside t d (Files.TempName.of name ticket :: d) s) (hleads : s.tree.LeadsTo above d)
    (hnode : ∃ old, s.tree.node? (Files.TempName.of name ticket :: d) = some (.file old))
    (hwritten : Written (tempOf path ticket) s content s') :
    Beside t d (Files.TempName.of name ticket :: d) s' ∧ s'.tree.LeadsTo above d ∧
      ∃ old, s'.tree.node? (Files.TempName.of name ticket :: d) = some (.file old) := by
  obtain ⟨hends, hparent⟩ := haccepted.temp ticket
  induction hwritten with
  | start => exact ⟨h, hleads, hnode⟩
  | @write _ next t' tree _ hwrite ih =>
    obtain ⟨hbeside, hleads', old, hold⟩ := ih
    have hfile : ∀ node, t'.tree.node? (Files.TempName.of name ticket :: d) = some node →
        ∃ old, node = .file old := fun node hnode =>
      ⟨old, Option.some.inj (hnode.symm.trans hold)⟩
    obtain ⟨-, -, rfl⟩ := Files.Tree.writeFile_ok_onto hends
      (Files.TempName.isName_of name ticket).2 hparent hleads' hfile hwrite
    exact ⟨hbeside.trans (.insert _ _ _) fun a ha => ⟨_, List.mem_singleton.1 ha⟩,
      leadsTo_insert_file hleads' hfile, next,
      by rw [Files.Tree.node?_insert, if_pos ⟨List.cons_ne_nil _ _, rfl⟩]⟩

/-- The temporary file is moved within the directory. -/
theorem Beside.ends_moveTemp (haccepted : Accepted t₀ root path above name)
    (h : Beside t d (Files.TempName.of name ticket :: d) s) (hleads : s.tree.LeadsTo above d) :
    Ends (onTree (Tree.rename (tempOf path ticket) path)) s
      (fun _ => Beside t d (Files.TempName.of name ticket :: d)) (fun _ s' => s' = s) := by
  obtain ⟨hends, hparent⟩ := haccepted.temp ticket
  obtain ⟨pre, trail, hpath⟩ := haccepted.ends
  refine ends_onTree (fun tree htree => ?_) fun error _ => rfl
  obtain ⟨d₁, d₂, node, hfrom, hto, -, rfl⟩ :=
    Files.Tree.rename_eq_ok hends hparent hpath haccepted.parent htree
  obtain rfl := hleads.unique hfrom
  obtain rfl := hleads.unique hto
  refine h.trans ((Edits.erase _ _).trans (.insert _ _ _)) fun a ha => ?_
  rcases List.mem_append.1 ha with ha | ha <;> exact ⟨_, List.mem_singleton.1 ha⟩

theorem ends_fill {fill : Call Directory Nat} {old : Bytes}
    (haccepted : Accepted t₀ root path above name)
    (hfill : Fills (tempOf path ticket) fill s (fun _ => True) fun _ _ => True)
    (hs : Beside t d (Files.TempName.of name ticket :: d) s) (hleads : s.tree.LeadsTo above d)
    (hnode : s.tree.node? (Files.TempName.of name ticket :: d) = some (.file old)) :
    Ends
      (Call.onFailure (Directory.discardTemp (tempOf path ticket)) do
        let size ← fill
        onTree (Tree.rename (tempOf path ticket) path)
        pure size) s
      (fun _ => Beside t d (Files.TempName.of name ticket :: d))
      (fun _ => Beside t d (Files.TempName.of name ticket :: d)) := by
  -- until the file is moved, the path above still leads to its directory
  have hbody : Ends
      (do
        let size ← fill
        onTree (Tree.rename (tempOf path ticket) path)
        pure size) s
      (fun _ => Beside t d (Files.TempName.of name ticket :: d))
      (fun _ s' => Beside t d (Files.TempName.of name ticket :: d) s' ∧
        s'.tree.LeadsTo above d) := by
    refine Ends.andThen hfill ?_ ?_
    · rintro _ s₁ ⟨content, hwritten, -⟩
      obtain ⟨hs₁, hleads₁, -⟩ := hs.of_written haccepted hleads ⟨old, hnode⟩ hwritten
      exact ⟨hs₁, hleads₁⟩
    rintro size s₁ ⟨bytes, -, -, hwritten⟩
    obtain ⟨hs₁, hleads₁, -⟩ := hs.of_written haccepted hleads ⟨old, hnode⟩ hwritten
    refine (hs₁.ends_moveTemp haccepted hleads₁).andThen ?_ fun _ s₂ hs₂ => Ends.pure hs₂
    rintro _ _ rfl
    exact ⟨hs₁, hleads₁⟩
  exact hbody.onFailure (fun error s' ⟨hs', hleads'⟩ => hs'.discardTemp haccepted hleads')
    fun s' ⟨hs', _⟩ => hs'

end

/-- The rest of a write, once the directory is there: nothing is touched, or entries of the
directory are. -/
theorem ends_write {path : Path} {fill : Path → Call Directory Nat} {d : Location} {s : Directory}
    {t₀ : Tree} (haccepted : Accepted t₀ root path above name) (hfill : OnlyFills fill)
    (hleads : s.tree.LeadsTo above d)
    (hfresh : s.tree.node? (Files.TempName.of name s.ticket :: d) = none)
    {P : Directory → Prop}
    (hdone : ∀ s', (s.tree.writeFile (tempOf path s.ticket) []).isOk = true →
      Beside s.tree d (Files.TempName.of name s.ticket :: d) s' → P s')
    (hnot : ∀ s', (s.tree.writeFile (tempOf path s.ticket) []).isOk = false → s'.tree = s.tree →
      P s') :
    Ends
      (do
        let temp ← tempPath path
        onTree (Tree.writeFile temp [])
        Call.onFailure (Directory.discardTemp temp) do
          let size ← fill temp
          onTree (Tree.rename temp path)
          pure size) s (fun _ => P) (fun _ => P) := by
  obtain ⟨hends, hparent⟩ := haccepted.temp s.ticket
  have hvacant : ∀ node, s.tree.node? (Files.TempName.of name s.ticket :: d) = some node →
      ∃ old, node = .file old := by
    intro node h
    rw [hfresh] at h
    cases h
  have htemp : Ends (tempPath path) s
      (fun temp s' => temp = tempOf path s.ticket ∧ s' = { s with ticket := s.ticket + 1 })
      (fun _ _ => False) := ⟨rfl, rfl⟩
  refine Ends.bind (Ends.mono htemp (fun _ _ h => h) fun _ _ h => h.elim) fun temp s₁ hs₁ => ?_
  obtain ⟨rfl, rfl⟩ := hs₁
  have hcreate : Ends (onTree (Tree.writeFile (tempOf path s.ticket) []))
      { s with ticket := s.ticket + 1 }
      (fun _ s' => (s.tree.writeFile (tempOf path s.ticket) []).isOk = true ∧
        s'.tree = s.tree.insert (Files.TempName.of name s.ticket :: d) (.file []))
      (fun _ => P) := by
    refine ends_onTree (fun tree htree => ⟨by rw [htree]; rfl, ?_⟩) fun error herror =>
      hnot _ (by rw [herror]; rfl) rfl
    exact (Files.Tree.writeFile_ok_onto hends (Files.TempName.isName_of name s.ticket).2 hparent
      hleads hvacant htree).2.2
  refine Ends.bind hcreate fun _ s₂ ⟨hok, hs₂⟩ => ?_
  have hbeside : Beside s.tree d (Files.TempName.of name s.ticket :: d) s₂ :=
    ⟨_, hs₂ ▸ .insert _ _ _, List.mem_singleton_self _, fun a ha => ⟨_, List.mem_singleton.1 ha⟩⟩
  have hleads₂ : s₂.tree.LeadsTo above d := hs₂ ▸ leadsTo_insert_file hleads hvacant
  have hnode : s₂.tree.node? (Files.TempName.of name s.ticket :: d) = some (.file []) := by
    rw [hs₂, Files.Tree.node?_insert, if_pos ⟨List.cons_ne_nil _ _, rfl⟩]
  exact Ends.mono (ends_fill haccepted (hfill _ s₂) hbeside hleads₂ hnode)
    (fun _ s' => hdone s' hok) fun _ s' => hdone s' hok

/-! ## Deleting -/

theorem delete_eq {d : Directory} {bucket key : String} {path : Path}
    (h : d.objectPath bucket key = .ok path) :
    Directory.delete bucket key d =
      match d.tree.removeFile path with
      | .ok tree => .ok () { d with tree }
      | .error error =>
        if error.kind = .notFound then .ok () d else .error (.failed (.io error)) d := by
  rw [Directory.delete, Call.get_bind, h, Call.ofExcept_ok]
  rfl

end ChunkedUpload.Directory
