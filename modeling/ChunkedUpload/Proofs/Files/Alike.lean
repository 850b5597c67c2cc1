import ChunkedUpload.Proofs.Files.Growth

/-!
# Trees that differ in the bytes of files

`Alike same t t'`: the two trees have the same directories and links, and files at the same
locations; the bytes are the same at the locations in `same`. No operation but `readFile` looks at
bytes. So paths lead to the same locations (`Alike.locateFrom`), and an operation that edits one of
the trees edits the other at the same location, or fails with the same error (`Alike.makeDirAll`,
`Alike.writeFile`, `Alike.rename`, `Alike.removeFile`).
-/

namespace ChunkedUpload.Files

namespace Tree

/-- Where a path leads, without the bytes there. -/
def Spot.shape : Spot → Spot
  | .found loc node => .found loc node.shape
  | .vacant loc => .vacant loc

/-- Two trees that differ in the bytes of files outside of `same`. -/
structure Alike (same : Location → Prop) (t t' : Tree) : Prop where
  here : t.here = t'.here
  shape : ∀ a, (t.node? a).map Node.shape = (t'.node? a).map Node.shape
  same : ∀ a, same a → t.node? a = t'.node? a

namespace Alike

variable {same more : Location → Prop} {t t' u : Tree} {a loc : Location} {p : Path}
  {follow : Bool} {n : Nat}

theorem symm (h : Alike same t t') : Alike same t' t :=
  ⟨h.here.symm, fun a => (h.shape a).symm, fun a ha => (h.same a ha).symm⟩

theorem mono (h : Alike same t t') (hmore : ∀ a, more a → same a) : Alike more t t' :=
  ⟨h.here, h.shape, fun a ha => h.same a (hmore a ha)⟩

/-! ## Nodes -/

/-- What the trees have at a location. -/
theorem nodes (h : Alike same t t') (a : Location) :
    (t.node? a = none ∧ t'.node? a = none) ∨ ∃ node node', t.node? a = some node ∧
      t'.node? a = some node' ∧ node.shape = node'.shape := by
  have hshape := h.shape a
  cases hthis : t.node? a <;> cases hthat : t'.node? a <;> rw [hthis, hthat] at hshape
  · exact .inl ⟨rfl, rfl⟩
  · cases hshape
  · cases hshape
  · exact .inr ⟨_, _, rfl, rfl, Option.some.inj hshape⟩

/-- What is not a file is the same. -/
theorem node?_eq (h : Alike same t t') (hnode : ∀ content, t.node? a ≠ some (.file content)) :
    t'.node? a = t.node? a := by
  rcases h.nodes a with ⟨hthis, hthat⟩ | ⟨node, node', hthis, hthat, hshape⟩
  · rw [hthis, hthat]
  · rcases Node.cases_of_shape hshape with ⟨content, -, rfl, -⟩ | ⟨rfl, -⟩
    · exact absurd hthis (hnode content)
    · rw [hthis, hthat]

theorem node?_eq_dir (h : Alike same t t') : t.node? a = some .dir ↔ t'.node? a = some .dir := by
  constructor
  · intro hdir
    rw [h.node?_eq (by rw [hdir]; nofun), hdir]
  · intro hdir
    rw [h.symm.node?_eq (by rw [hdir]; nofun), hdir]

/-! ## Where paths lead -/

theorem locateFrom (h : Alike same t t') (follow : Bool) (n : Nat) (loc : Location) (p : Path) :
    (t.locateFrom follow n loc p).map Spot.shape =
      (t'.locateFrom follow n loc p).map Spot.shape := by
  induction n, loc, p using walk_induction with
  | nil n loc => rw [locateFrom_nil, locateFrom_nil]
  | blank n loc piece rest hblank ih =>
    rw [locateFrom_blank hblank, locateFrom_blank hblank]
    exact ih
  | up n loc rest ih =>
    rw [locateFrom_up, locateFrom_up]
    exact ih
  | name n loc piece rest hname hdown hlink =>
    by_cases hfits : piece.utf8ByteSize ≤ nameMax
    · rcases h.nodes (piece :: loc) with ⟨hthis, hthat⟩ | ⟨node, node', hthis, hthat, hshape⟩
      · rw [locateFrom_missing hname hfits hthis, locateFrom_missing hname hfits hthat]
      · rcases Node.cases_of_shape hshape with ⟨content, content', rfl, rfl⟩ | ⟨rfl, hnofile⟩
        · rw [locateFrom_file hname hfits hthis, locateFrom_file hname hfits hthat]
          split <;> rfl
        · cases node' with
          | dir =>
            rw [locateFrom_dir hname hfits hthis, locateFrom_dir hname hfits hthat]
            exact hdown
          | file content => exact absurd rfl (hnofile content)
          | link target =>
            by_cases hon : rest ≠ [] ∨ follow = true
            · cases n with
              | zero =>
                rw [locateFrom_link_zero hname hfits hthis hon,
                  locateFrom_link_zero hname hfits hthat hon]
              | succ m =>
                rw [locateFrom_link_succ hname hfits hthis hon,
                  locateFrom_link_succ hname hfits hthat hon]
                exact hlink m target rfl
            · rw [not_or, not_not, Bool.not_eq_true] at hon
              obtain ⟨rfl, rfl⟩ := hon
              rw [locateFrom_link_end hname hfits hthis, locateFrom_link_end hname hfits hthat]
    · have hlong := Nat.not_le.1 hfits
      rw [locateFrom_long hname hlong, locateFrom_long hname hlong]

/-- Of two walks that come to the same, but for bytes. -/
theorem spots (h : Alike same t t') (follow : Bool) (n : Nat) (loc : Location) (p : Path) :
    (∃ error, t.locateFrom follow n loc p = .error error ∧
        t'.locateFrom follow n loc p = .error error) ∨
      (∃ l, t.locateFrom follow n loc p = .ok (.vacant l) ∧
        t'.locateFrom follow n loc p = .ok (.vacant l)) ∨
      ∃ l node node', t.locateFrom follow n loc p = .ok (.found l node) ∧
        t'.locateFrom follow n loc p = .ok (.found l node') ∧ node.shape = node'.shape := by
  have hmap := h.locateFrom follow n loc p
  rcases hthis : t.locateFrom follow n loc p with error | ⟨l, node⟩ | l <;>
    rcases hthat : t'.locateFrom follow n loc p with error' | ⟨l', node'⟩ | l' <;>
    rw [hthis, hthat] at hmap <;> simp only [Except.map, Spot.shape, Except.error.injEq,
      Except.ok.injEq, Spot.found.injEq, Spot.vacant.injEq, reduceCtorEq] at hmap
  · exact .inl ⟨error, rfl, by rw [hmap]⟩
  · obtain ⟨rfl, hshape⟩ := hmap
    exact .inr (.inr ⟨l, node, node', rfl, rfl, hshape⟩)
  · exact .inr (.inl ⟨l, rfl, by rw [hmap]⟩)

/-- The entries that a path leads to. -/
theorem entry (h : Alike same t t') (follow : Bool) (p : Path) :
    (∃ error, t.entry follow p = .error error ∧ t'.entry follow p = .error error) ∨
      ∃ l node node', t.entry follow p = .ok (l, node) ∧ t'.entry follow p = .ok (l, node') ∧
        node.shape = node'.shape := by
  cases htext : checkText p with
  | error error =>
    rw [entry_of_bad_text htext, entry_of_bad_text htext]
    exact .inl ⟨error, rfl, rfl⟩
  | ok =>
    rw [entry_eq htext, entry_eq htext, ← h.here]
    rcases h.spots follow linksMax (start t.here p) p with
      ⟨error, hthis, hthat⟩ | ⟨l, hthis, hthat⟩ | ⟨l, node, node', hthis, hthat, hshape⟩ <;>
      rw [hthis, hthat]
    · exact .inl ⟨_, rfl, rfl⟩
    · exact .inl ⟨_, rfl, rfl⟩
    · exact .inr ⟨l, node, node', rfl, rfl, hshape⟩

theorem realpath (h : Alike same t t') (p : Path) : t.realpath p = t'.realpath p := by
  unfold Tree.realpath
  rcases h.entry true p with ⟨error, hthis, hthat⟩ | ⟨l, node, node', hthis, hthat, -⟩
  · rw [hthis, hthat]
  · rw [hthis, hthat]
    rfl

theorem isDir (h : Alike same t t') (p : Path) : t.isDir p = t'.isDir p := by
  unfold Tree.isDir
  rcases h.entry true p with ⟨error, hthis, hthat⟩ | ⟨l, node, node', hthis, hthat, hshape⟩
  · rw [hthis, hthat]
  · rw [hthis, hthat]
    rcases Node.cases_of_shape hshape with ⟨content, content', rfl, rfl⟩ | ⟨rfl, -⟩ <;> rfl

theorem slot (h : Alike same t t') (p : Path) : t.slot p = t'.slot p := by
  cases htext : checkText p with
  | error error => rw [slot_of_bad_text htext, slot_of_bad_text htext]
  | ok =>
    unfold Tree.slot
    simp only [htext, ← h.here]
    rcases h.spots true linksMax (start t.here p)
      ((Path.dropEnd (fun piece => piece = "") p).dropLast ++ ["."]) with
      ⟨error, hthis, hthat⟩ | ⟨l, hthis, hthat⟩ | ⟨l, node, node', hthis, hthat, -⟩
    · simp only [hthis, hthat]
    · simp only [hthis, hthat]
    · simp only [hthis, hthat]
      rfl

/-! ## Edits -/

theorem insert (h : Alike same t t') (loc : Location) (node : Node) :
    Alike (fun a => same a ∨ a = loc) (t.insert loc node) (t'.insert loc node) := by
  refine ⟨h.here, fun a => ?_, fun a ha => ?_⟩
  · rw [node?_insert, node?_insert]
    split
    · rfl
    · exact h.shape a
  · rw [node?_insert, node?_insert]
    split
    · rfl
    · rename_i hother
      rcases ha with ha | rfl
      · exact h.same a ha
      · by_cases htop : a = []
        · rw [htop, node?_nil, node?_nil]
        · exact absurd ⟨htop, rfl⟩ hother

theorem erase (h : Alike same t t') (loc : Location) :
    Alike same (t.erase loc) (t'.erase loc) := by
  refine ⟨h.here, fun a => ?_, fun a ha => ?_⟩
  · rw [node?_erase, node?_erase]
    split
    · rfl
    · exact h.shape a
  · rw [node?_erase, node?_erase, h.same a ha]

/-- What is found in a slot. -/
theorem nodeIn? (h : Alike same t t') (s : Slot) :
    (∃ error, t.nodeIn? s = .error error ∧ t'.nodeIn? s = .error error) ∨
      (t.nodeIn? s = .ok none ∧ t'.nodeIn? s = .ok none) ∨
      ∃ node node', t.nodeIn? s = .ok (some node) ∧ t'.nodeIn? s = .ok (some node') ∧
        node.shape = node'.shape := by
  unfold Tree.nodeIn?
  split
  · exact .inl ⟨_, rfl, rfl⟩
  · rcases h.nodes s.loc with ⟨hthis, hthat⟩ | ⟨node, node', hthis, hthat, hshape⟩ <;>
      rw [hthis, hthat]
    · exact .inr (.inl ⟨rfl, rfl⟩)
    · exact .inr (.inr ⟨node, node', rfl, rfl, hshape⟩)

theorem makeDir (h : Alike same t t') (p : Path) :
    (∃ error, t.makeDir p = .error error ∧ t'.makeDir p = .error error) ∨
      ∃ l, t.makeDir p = .ok (t.insert l .dir) ∧ t'.makeDir p = .ok (t'.insert l .dir) := by
  unfold Tree.makeDir
  simp only [bind, Except.bind, ← h.slot p]
  cases t.slot p with
  | error error => exact .inl ⟨error, rfl, rfl⟩
  | ok s =>
    dsimp only
    split
    · exact .inl ⟨_, rfl, rfl⟩
    rcases h.nodeIn? s with
      ⟨error, hthis, hthat⟩ | ⟨hthis, hthat⟩ | ⟨node, node', hthis, hthat, -⟩ <;>
      simp only [hthis, hthat]
    · exact .inl ⟨error, rfl, rfl⟩
    · exact .inr ⟨s.loc, rfl, rfl⟩
    · exact .inl ⟨_, rfl, rfl⟩

theorem makeDir_ok (h : Alike same t t') (hmake : t.makeDir p = .ok u) :
    ∃ u', t'.makeDir p = .ok u' ∧ Alike same u u' := by
  rcases h.makeDir p with ⟨error, hthis, -⟩ | ⟨l, hthis, hthat⟩
  · cases hmake.symm.trans hthis
  · cases hmake.symm.trans hthis
    exact ⟨_, hthat, (h.insert l .dir).mono fun _ => .inl⟩

theorem makeDir_error {error : IoError} (h : Alike same t t') (hmake : t.makeDir p = .error error) :
    t'.makeDir p = .error error := by
  rcases h.makeDir p with ⟨_, hthis, hthat⟩ | ⟨l, hthis, -⟩
  · cases hmake.symm.trans hthis
    exact hthat
  · cases hmake.symm.trans hthis

/-- What is made of the directories of a path, and how that ends, is the same. -/
theorem makeDirAllFrom (depth : Nat) (p : Path) (t : Tree) : ∀ {t' : Tree}, Alike same t t' →
    ∃ u', Tree.makeDirAllFrom depth p t' = ((Tree.makeDirAllFrom depth p t).1, u') ∧
      Alike same (Tree.makeDirAllFrom depth p t).2 u' := by
  fun_induction Tree.makeDirAllFrom depth p t with
  | case1 depth p t hempty =>
    intro t' h
    unfold Tree.makeDirAllFrom
    exact ⟨t', if_pos hempty, h⟩
  | case2 depth p t hempty u hmake =>
    intro t' h
    obtain ⟨u', hmake', hu⟩ := h.makeDir_ok hmake
    refine ⟨u', ?_, hu⟩
    unfold Tree.makeDirAllFrom
    simp only [if_neg hempty, hmake']
  | case3 p t hempty _ hmake hkind depth above habove error u hall ih =>
    intro t' h
    obtain ⟨u', hall', hu⟩ := ih h
    rw [hall] at hall' hu
    refine ⟨u', ?_, hu⟩
    unfold Tree.makeDirAllFrom
    simp only [if_neg hempty, h.makeDir_error hmake, if_pos hkind, habove, hall']
  | case4 p t hempty _ hmake hkind depth above habove u hall v hagain ih =>
    intro t' h
    obtain ⟨u', hall', hu⟩ := ih h
    rw [hall] at hall' hu
    obtain ⟨v', hagain', hv⟩ := hu.makeDir_ok hagain
    refine ⟨v', ?_, hv⟩
    unfold Tree.makeDirAllFrom
    simp only [if_neg hempty, h.makeDir_error hmake, if_pos hkind, habove, hall', hagain']
  | case5 p t hempty _ hmake hkind depth above habove u hall error hagain ih =>
    intro t' h
    obtain ⟨u', hall', hu⟩ := ih h
    rw [hall] at hall' hu
    refine ⟨u', ?_, hu⟩
    unfold Tree.makeDirAllFrom
    simp only [if_neg hempty, h.makeDir_error hmake, if_pos hkind, habove, hall',
      hu.makeDir_error hagain, hu.isDir p]
  | case6 depth p t hempty error hmake hkind hnone =>
    intro t' h
    refine ⟨t', ?_, h⟩
    unfold Tree.makeDirAllFrom
    simp only [if_neg hempty, h.makeDir_error hmake, if_pos hkind]
  | case7 depth p t hempty error hmake hkind =>
    intro t' h
    refine ⟨t', ?_, h⟩
    unfold Tree.makeDirAllFrom
    simp only [if_neg hempty, h.makeDir_error hmake, if_neg hkind, h.isDir p]

theorem makeDirAll (h : Alike same t t') (p : Path) :
    ∃ u', t'.makeDirAll p = ((t.makeDirAll p).1, u') ∧ Alike same (t.makeDirAll p).2 u' :=
  makeDirAllFrom p.length p t h

/-- A file is written at the same place, where no directory is. -/
theorem writeFile (h : Alike same t t') (p : Path) (content : Bytes) :
    (∃ error, t.writeFile p content = .error error ∧ t'.writeFile p content = .error error) ∨
      ∃ l, t.writeFile p content = .ok (t.insert l (.file content)) ∧
        t'.writeFile p content = .ok (t'.insert l (.file content)) := by
  unfold Tree.writeFile Tree.locate
  cases checkText p with
  | error error => exact .inl ⟨error, rfl, rfl⟩
  | ok =>
    simp only [bind, Except.bind, ← h.here]
    rcases h.spots true linksMax (start t.here p) p with
      ⟨error, hthis, hthat⟩ | ⟨l, hthis, hthat⟩ | ⟨l, node, node', hthis, hthat, hshape⟩ <;>
      simp only [hthis, hthat, system, Except.mapError]
    · exact .inl ⟨_, rfl, rfl⟩
    · exact .inr ⟨l, rfl, rfl⟩
    · rcases Node.cases_of_shape hshape with ⟨old, old', rfl, rfl⟩ | ⟨rfl, -⟩
      · exact .inr ⟨l, rfl, rfl⟩
      · cases node' with
        | dir => exact .inl ⟨_, rfl, rfl⟩
        | file | link => exact .inr ⟨l, rfl, rfl⟩

theorem removeFile (h : Alike same t t') (p : Path) :
    (∃ error, t.removeFile p = .error error ∧ t'.removeFile p = .error error) ∨
      ∃ l, t.removeFile p = .ok (t.erase l) ∧ t'.removeFile p = .ok (t'.erase l) := by
  unfold Tree.removeFile
  simp only [bind, Except.bind, ← h.slot p]
  cases t.slot p with
  | error error => exact .inl ⟨error, rfl, rfl⟩
  | ok s =>
    dsimp only
    split
    · exact .inl ⟨_, rfl, rfl⟩
    rcases h.nodeIn? s with
      ⟨error, hthis, hthat⟩ | ⟨hthis, hthat⟩ | ⟨node, node', hthis, hthat, hshape⟩ <;>
      simp only [hthis, hthat]
    · exact .inl ⟨error, rfl, rfl⟩
    · exact .inl ⟨_, rfl, rfl⟩
    · cases s.slash <;>
        rcases Node.cases_of_shape hshape with ⟨content, content', rfl, rfl⟩ | ⟨rfl, -⟩
      · exact .inr ⟨s.loc, rfl, rfl⟩
      · cases node' with
        | dir => exact .inl ⟨_, rfl, rfl⟩
        | file | link => exact .inr ⟨s.loc, rfl, rfl⟩
      · exact .inl ⟨_, rfl, rfl⟩
      · cases node' <;> exact .inl ⟨_, rfl, rfl⟩

/-- What is moved is the entry in the slot of the one path, and it goes to that of the other. -/
theorem rename (h : Alike same t t') (p q : Path) :
    (∃ error, t.rename p q = .error error ∧ t'.rename p q = .error error) ∨
      ∃ s d node node', t.slot p = .ok s ∧ s.isSpecial = false ∧ t.node? s.loc = some node ∧
        t'.node? s.loc = some node' ∧
        t.rename p q = .ok ((t.erase s.loc).insert d node) ∧
        t'.rename p q = .ok ((t'.erase s.loc).insert d node') := by
  unfold Tree.rename Tree.nodeIn?
  simp only [bind, Except.bind, ← h.slot p, ← h.slot q]
  cases t.slot p with
  | error error => exact .inl ⟨error, rfl, rfl⟩
  | ok s =>
    cases t.slot q with
    | error error => exact .inl ⟨error, rfl, rfl⟩
    | ok d =>
      dsimp only
      by_cases hspecial : s.isSpecial = true ∨ d.isSpecial = true
      · simp only [if_pos hspecial]
        exact .inl ⟨_, rfl, rfl⟩
      by_cases hlong : nameMax < s.name.utf8ByteSize
      · simp only [if_neg hspecial, if_pos hlong]
        exact .inl ⟨_, rfl, rfl⟩
      by_cases hlong' : nameMax < d.name.utf8ByteSize
      · simp only [if_neg hspecial, if_neg hlong, if_pos hlong']
        exact .inl ⟨_, rfl, rfl⟩
      rcases h.nodes s.loc with ⟨hthis, hthat⟩ | ⟨node, node', hthis, hthat, -⟩ <;>
        simp only [hthis, hthat, if_neg hspecial, if_neg hlong, if_neg hlong', ← h.node?_eq_dir]
      · exact .inl ⟨_, rfl, rfl⟩
      · cases d.slash with
        | true => exact .inl ⟨_, rfl, rfl⟩
        | false =>
          by_cases hdir : t.node? d.loc = some .dir
          · simp only [if_pos hdir]
            exact .inl ⟨_, rfl, rfl⟩
          · simp only [if_neg hdir]
            have hplain := Bool.eq_false_iff.2 fun hs => hspecial (.inl hs)
            exact .inr ⟨s, d.loc, node, node', rfl, hplain, hthis, hthat, rfl, rfl⟩

/-! ## Bytes -/

/-- A path is read alike if the files that it leads to hold the same bytes. -/
theorem readFile_of_bytes (h : Alike same t t') (hbytes : ∀ l content content',
    t.entry true p = .ok (l, .file content) → t'.entry true p = .ok (l, .file content') →
      content = content') : t.readFile p = t'.readFile p := by
  unfold Tree.readFile
  rcases h.entry true p with ⟨error, hthis, hthat⟩ | ⟨l, node, node', hthis, hthat, hshape⟩
  · rw [hthis, hthat]
  · rw [hthis, hthat]
    rcases Node.cases_of_shape hshape with ⟨content, content', rfl, rfl⟩ | ⟨rfl, -⟩
    · exact congrArg Except.ok (hbytes l _ _ hthis hthat)
    · rfl

theorem readFile (h : Alike same t t')
    (hsame : ∀ l content, t.entry true p = .ok (l, .file content) → same l) :
    t.readFile p = t'.readFile p := by
  refine h.readFile_of_bytes fun l content content' hthis hthat => ?_
  have hnode := node?_of_found (locateFrom_of_entry hthis)
  rw [h.same l (hsame l content hthis), node?_of_found (locateFrom_of_entry hthat)] at hnode
  cases hnode
  rfl

end Alike

end Tree

end ChunkedUpload.Files
