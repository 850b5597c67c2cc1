import ChunkedUpload.Proofs.Reader.Delivery
import ChunkedUpload.Proofs.Storage.Places

/-!
# Writes below a root without links

Where a file can be written and its temporary file, too, a write succeeds if its filling does: the
directories are made, and one file has the new content (`replaceFile_ok`). If the filling fails, no
more than the directories is left (`replaceFile_failed`).
-/

namespace ChunkedUpload.Directory

open Call (Ends)
open Files (Location Node Path Tree under)
open Files.Tree (Around Open Paved Rooted checkText)

variable {t t' : Tree} {d : Directory} {loc : Location} {base q : Path} {name : String}

/-- A file can be written in the directory `q` below a root, which may have to be made. -/
structure Writable (t : Tree) (base : Path) (loc : Location) (q : Path) (name : String) : Prop where
  rooted : t.Rooted base loc
  plain : Files.Path.Plain (q ++ [name])
  nonempty : q ≠ []
  clear : ∀ pre, pre <+: q → t.node? (under loc pre) = none ∨ t.node? (under loc pre) = some .dir
  file : ∀ node, t.node? (name :: under loc q) = some node → ∃ old, node = .file old
  text : checkText (base ++ (q ++ [name])) = .ok ()

namespace Writable

theorem rooted_of_around (h : Writable t base loc q name) (haround : Around t loc q name t') :
    t'.Rooted base loc :=
  haround.rooted h.rooted h.clear h.file

theorem leaf (h : Writable t base loc q name) : t.node? (name :: under loc q) ≠ some .dir := by
  intro hdir
  obtain ⟨old, heq⟩ := h.file _ hdir
  cases heq

theorem writeFile {old : Option Bytes} (h : Writable t base loc q name)
    (haround : Around t loc q name t') (hold : t'.node? (name :: under loc q) = old.map .file)
    (content : Bytes) :
    t'.writeFile (base ++ (q ++ [name])) content =
        .ok (t'.insert (name :: under loc q) (.file content)) ∧
      Around t loc q name (t'.insert (name :: under loc q) (.file content)) ∧
      (t'.insert (name :: under loc q) (.file content)).node? (name :: under loc q) =
        some (.file content) := by
  have hfile : ∀ node, t'.node? (name :: under loc q) = some node → ∃ old, node = .file old := by
    intro node hnode
    rw [hold] at hnode
    cases old with
    | none => cases hnode
    | some old => exact ⟨old, (Option.some.inj hnode).symm⟩
  refine ⟨Files.Tree.writeFile_under (h.rooted_of_around haround) h.plain
    (haround.made q (List.prefix_refl q)) hfile h.text content,
    haround.file (fun hdir => ?_) content, by rw [Files.Tree.node?_insert_cons, if_pos rfl]⟩
  obtain ⟨old, heq⟩ := hfile _ hdir
  cases heq

end Writable

/-! ## The steps of a write -/

theorem ensureParent_under (h : Writable d.tree base loc q name) :
    ∃ t, ensureParent (base ++ (q ++ [name])) d = .ok () { d with tree := t } ∧
      Paved d.tree loc q t := by
  have hshort : q <+: q ++ [name] := List.prefix_append q [name]
  have hq := h.plain.above hshort
  have htext : checkText (base ++ q) = .ok () := by
    have htext := h.text
    rw [← List.append_assoc] at htext
    exact Files.Tree.checkText_of_append htext (Rooted.isEmpty hq h.nonempty)
  have hdepth : q.length ≤ (base ++ q).length := by
    rw [List.length_append]
    omega
  obtain ⟨t, hall, hpaved⟩ := Files.Tree.makeDirAllFrom_under h.rooted hq h.nonempty hdepth h.clear
    htext
  refine ⟨t, ?_, hpaved⟩
  rw [ensureParent, Rooted.parent?_eq base h.plain h.nonempty]
  dsimp only
  rw [Tree.makeDirAll, hall]

theorem tempOf_under (base : Path) (hq : Files.Path.Plain (q ++ [name])) (hne : q ≠ [])
    (ticket : Nat) :
    tempOf (base ++ (q ++ [name])) ticket = base ++ (q ++ [Files.TempName.of name ticket]) := by
  have hends : Files.Path.Ends (base ++ (q ++ [name])) (base ++ q) name [] := Rooted.ends hq.last.1
  have hlast : (base ++ q).getLast? ≠ some "" := by
    obtain ⟨front, last, rfl⟩ := List.eq_nil_or_concat' q |>.resolve_left hne
    have hname := (hq last (by simp)).1.1
    rw [← List.append_assoc, List.getLast?_concat]
    rintro heq
    rw [Option.some.inj heq] at hname
    cases hname
  rw [tempOf, hends.fileName? hq.last.1.2, Option.getD_some,
    Files.Path.withFileName_eq hends hq.last.1.2 (Rooted.parent?_eq base hq hne) hlast,
    List.append_assoc]

theorem onTree_eq_ok {operation : Tree → Except IoError Tree}
    (h : operation d.tree = .ok t) : onTree operation d = .ok () { d with tree := t } := by
  rw [onTree, h]

/-- Nothing keeps the temporary file from being filled. -/
theorem Writable.ends_fill {temp : String} {fill : Call Directory Nat} {s : Directory}
    {done : Bytes → Prop} {stop : Halt → Bytes → Prop} (h : Writable t base loc q temp)
    (haround : Around t loc q temp s.tree)
    (hempty : s.tree.node? (temp :: under loc q) = some (.file []))
    (hfill : Fills (base ++ (q ++ [temp])) fill s done stop) :
    Ends fill s
      (fun size s' => ∃ bytes t', done bytes ∧ size = bytes.length ∧ s' = { s with tree := t' } ∧
        Around t loc q temp t' ∧ t'.node? (temp :: under loc q) = some (.file bytes))
      (fun halt s' => ∃ content t', stop halt content ∧ s' = { s with tree := t' } ∧
        Around t loc q temp t' ∧ t'.node? (temp :: under loc q) = some (.file content)) := by
  have hkept : ∀ {content s'}, Written (base ++ (q ++ [temp])) s content s' →
      ∃ t', s' = { s with tree := t' } ∧ Around t loc q temp t' ∧
        t'.node? (temp :: under loc q) = (some content).map .file := by
    intro content s' hwritten
    induction hwritten with
    | start => exact ⟨s.tree, rfl, haround, hempty⟩
    | @write old next s₁ tree _ hwrite ih =>
      obtain ⟨t₁, rfl, haround₁, hold⟩ := ih
      obtain ⟨hwrite', haround₂, hnext⟩ := h.writeFile haround₁ hold next
      cases hwrite.symm.trans hwrite'
      exact ⟨_, rfl, haround₂, hnext⟩
  refine Ends.mono hfill ?_ ?_
  · rintro size s' ⟨bytes, hbytes, hsize, hwritten⟩
    obtain ⟨t', hs', haround', hfile⟩ := hkept hwritten
    exact ⟨bytes, t', hbytes, hsize, hs', haround', hfile⟩
  · rintro halt s' ⟨content, hwritten, hstop | ⟨bytes, error, hwrite, -⟩⟩
    · obtain ⟨t', hs', haround', hfile⟩ := hkept hwritten
      exact ⟨content, t', hstop, hs', haround', hfile⟩
    · obtain ⟨t', rfl, haround', hfile⟩ := hkept hwritten
      cases hwrite.symm.trans (h.writeFile haround' hfile bytes).1

/-- A steady stream fills the file with its content. -/
theorem fills_copy_of_steady {temp : Path} {contents : Reader} (h : contents.Steady)
    (s : Directory) :
    Fills temp (copyFrom temp [] contents) s (· = contents.content) fun _ _ => False := by
  obtain ⟨rest, hdrain, -, -⟩ := h.drain
  have hflow : contents.flow = contents.content := by rw [← Reader.drain_taken, hdrain]
  have hending : contents.ending = .done := by rw [← Reader.drain_stop, hdrain]
  refine (fills_copy contents s).mono (fun bytes hbytes => hbytes.2.trans hflow) ?_
  rintro halt content ⟨hhalt, -⟩
  rw [hending] at hhalt
  cases hhalt

section

variable {fill : Path → Call Directory Nat} {bytes : Bytes}

/-- Before the file is filled, there is an empty temporary file. -/
theorem replaceFile_eq (h : Writable d.tree base loc q name)
    (htemp : Writable d.tree base loc q (Files.TempName.of name d.ticket))
    (hfree : d.tree.node? (Files.TempName.of name d.ticket :: under loc q) = none)
    (fill : Path → Call Directory Nat) :
    ∃ t, Around d.tree loc q (Files.TempName.of name d.ticket) t ∧
      t.node? (Files.TempName.of name d.ticket :: under loc q) = some (.file []) ∧
      replaceFile (base ++ (q ++ [name])) fill d =
        Call.onFailure (discardTemp (base ++ (q ++ [Files.TempName.of name d.ticket])))
          (do
            let size ← fill (base ++ (q ++ [Files.TempName.of name d.ticket]))
            onTree (Tree.rename (base ++ (q ++ [Files.TempName.of name d.ticket]))
              (base ++ (q ++ [name])))
            pure size)
          { d with tree := t, ticket := d.ticket + 1 } := by
  obtain ⟨t₁, hparent, hpaved⟩ := ensureParent_under h
  have hnone : t₁.node? (Files.TempName.of name d.ticket :: under loc q) =
      Option.map Node.file none := by
    rw [hpaved.others _ fun pre hpre heq => Files.Tree.under_ne_below hpre heq.symm, hfree]
    rfl
  obtain ⟨hwrite, haround, hfile⟩ := htemp.writeFile (hpaved.around _) hnone []
  refine ⟨_, haround, hfile, ?_⟩
  have hpath : tempPath (base ++ (q ++ [name])) { d with tree := t₁ } =
      .ok (base ++ (q ++ [Files.TempName.of name d.ticket]))
        { d with tree := t₁, ticket := d.ticket + 1 } := by
    have htempOf := tempOf_under base h.plain h.nonempty d.ticket
    rw [tempOf] at htempOf
    rw [tempPath, htempOf]
  rw [replaceFile, Call.bind_of_ok hparent, Call.bind_of_ok hpath,
    Call.bind_of_ok (onTree_eq_ok hwrite)]

theorem replaceFile_ok (h : Writable d.tree base loc q name)
    (htemp : Writable d.tree base loc q (Files.TempName.of name d.ticket))
    (hfree : d.tree.node? (Files.TempName.of name d.ticket :: under loc q) = none)
    (hfill : ∀ (temp : Path) (s : Directory),
      Around d.tree loc q (Files.TempName.of name d.ticket) s.tree →
        Fills temp (fill temp) s (· = bytes) fun _ _ => False) :
    ∃ t, replaceFile (base ++ (q ++ [name])) fill d =
        .ok bytes.length { d with tree := t, ticket := d.ticket + 1 } ∧
      Around d.tree loc q name t ∧ t.node? (name :: under loc q) = some (.file bytes) := by
  obtain ⟨t₀, haround, hempty, heq⟩ := replaceFile_eq h htemp hfree fill
  have hends := htemp.ends_fill haround hempty
    (hfill _ { d with tree := t₀, ticket := d.ticket + 1 } haround)
  obtain ⟨_, _, hrun, bytes, t, rfl, rfl, rfl, hfilled, hfile⟩ :=
    Ends.exists_ok (hends.mono (fun _ _ h => h) fun _ _ ⟨_, _, h, _⟩ => h)
  have hdir := hfilled.made q (List.prefix_refl q)
  -- the target is as it was before the write
  have hne : name :: under loc q ≠ Files.TempName.of name d.ticket :: under loc q := by
    intro hsame
    have hsize := Files.TempName.utf8ByteSize_of name d.ticket
    rw [← (List.cons.inj hsame).1] at hsize
    omega
  have hothers : ∀ pre, pre <+: q → name :: under loc q ≠ under loc pre := fun pre hpre hsame =>
    Files.Tree.under_ne_below hpre hsame.symm
  have hleaf : t.node? (name :: under loc q) ≠ some .dir := by
    rw [hfilled.others _ hne hothers]
    exact h.leaf
  have hrename := Files.Tree.rename_under (htemp.rooted_of_around hfilled) htemp.plain h.plain hdir
    hfile hleaf htemp.text h.text
  have hgone := hfilled.erase (by rw [hfile]; nofun)
  have hpaved := hgone.paved (by rw [Files.Tree.node?_erase_cons, if_pos rfl, hfree])
  refine ⟨_, ?_, (hpaved.around name).file ?_ bytes, by
    rw [Files.Tree.node?_insert_cons, if_pos rfl]⟩
  · rw [heq]
    refine Call.onFailure_of_ok ?_
    rw [Call.bind_of_ok hrun, Call.bind_of_ok (onTree_eq_ok hrename)]
    rfl
  · rw [hpaved.others _ hothers]
    exact h.leaf

theorem replaceFile_failed {error : StorageError} (h : Writable d.tree base loc q name)
    (htemp : Writable d.tree base loc q (Files.TempName.of name d.ticket))
    (hfree : d.tree.node? (Files.TempName.of name d.ticket :: under loc q) = none)
    (hfill : ∀ (temp : Path) (s : Directory),
      Around d.tree loc q (Files.TempName.of name d.ticket) s.tree →
        Fills temp (fill temp) s (fun _ => False) fun halt _ => halt = .failed error) :
    ∃ t, replaceFile (base ++ (q ++ [name])) fill d =
        .error (.failed error) { d with tree := t, ticket := d.ticket + 1 } ∧
      Paved d.tree loc q t := by
  obtain ⟨t₀, haround, hempty, heq⟩ := replaceFile_eq h htemp hfree fill
  have hends := htemp.ends_fill haround hempty
    (hfill _ { d with tree := t₀, ticket := d.ticket + 1 } haround)
  obtain ⟨_, _, hrun, content, t, rfl, rfl, hfilled, hfile⟩ :=
    Ends.exists_error (hends.mono (fun _ _ ⟨_, _, h, _⟩ => h) fun _ _ h => h)
  have hopen : t.Open loc (q ++ [Files.TempName.of name d.ticket]) := fun pre hpre hne =>
    .inr (hfilled.made pre ((List.prefix_concat_iff.1 hpre).resolve_left hne))
  have hold : t.node? (Files.TempName.of name d.ticket :: under loc q) =
      Option.map Node.file (some content) := hfile
  have hremove := Files.Tree.removeFile_under (htemp.rooted_of_around hfilled) htemp.plain hopen
    hold htemp.text
  have hgone := hfilled.erase (by rw [hfile]; nofun)
  refine ⟨_, ?_, hgone.paved (by rw [Files.Tree.node?_erase_cons, if_pos rfl, hfree])⟩
  rw [heq, Call.onFailure_of_failed (Call.bind_of_error hrun), discardTemp, hremove]
  rfl

/-- If the filling is never done, neither is the write. -/
theorem replaceFile_abandoned (h : Writable d.tree base loc q name)
    (htemp : Writable d.tree base loc q (Files.TempName.of name d.ticket))
    (hfree : d.tree.node? (Files.TempName.of name d.ticket :: under loc q) = none)
    (hfill : ∀ (temp : Path) (s : Directory),
      Fills temp (fill temp) s (fun _ => False) fun halt _ => halt = .abandoned) :
    Call.Abandons (replaceFile (base ++ (q ++ [name])) fill) d := by
  obtain ⟨t₀, haround, hempty, heq⟩ := replaceFile_eq h htemp hfree fill
  have hends := htemp.ends_fill haround hempty
    (hfill _ { d with tree := t₀, ticket := d.ticket + 1 })
  obtain ⟨_, s, hrun, content, t, rfl, -⟩ :=
    Ends.exists_error (hends.mono (fun _ _ ⟨_, _, h, _⟩ => h) fun _ _ h => h)
  exact ⟨s, heq.trans (Call.onFailure_of_abandoned (Call.bind_of_error hrun))⟩

end

end ChunkedUpload.Directory
