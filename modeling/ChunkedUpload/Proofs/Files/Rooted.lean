import ChunkedUpload.Proofs.Files.Operations

/-!
# Below a root without links

`Rooted t base root`: the path `base` leads to the directory `root`, so that a path that goes on
with names `q` is about the location `under root q`. Where no link and no file stands above that
location (`Open`), an operation finds the node there, or misses the entry (`Rooted.entry`). What it
makes is told by `Paved` and `Around`: which entries are new, and that all else is as before.
-/

namespace ChunkedUpload.Files

/-- Names that a directory can have. -/
def Path.Plain (q : Path) : Prop :=
  ∀ piece ∈ q, Path.IsName piece ∧ piece.utf8ByteSize ≤ Tree.nameMax

/-- The location that names lead to from a directory. -/
def under (root : Location) (q : Path) : Location := q.reverse ++ root

variable {root : Location} {q pre : Path} {name : String}

@[simp] theorem under_nil : under root [] = root := rfl

@[simp] theorem under_concat : under root (q ++ [name]) = name :: under root q := by
  simp [under]

theorem under_inj {q' : Path} : under root q = under root q' ↔ q = q' := by
  rw [under, under, List.append_left_inj, List.reverse_inj]

theorem suffix_under (root : Location) (q : Path) : root <:+ under root q :=
  List.suffix_append _ _

theorem Path.Plain.above (h : q.Plain) (hpre : pre <+: q) : pre.Plain :=
  fun piece hpiece => h piece (hpre.subset hpiece)

theorem Path.Plain.last (h : Path.Plain (q ++ [name])) :
    Path.IsName name ∧ name.utf8ByteSize ≤ Tree.nameMax :=
  h name (List.mem_append_right q (List.mem_singleton_self name))

namespace Tree

variable {t t' : Tree} {base : Path}

/-- The path `base` leads to the directory `root`, however a path goes on from there. -/
structure Rooted (t : Tree) (base : Path) (root : Location) : Prop where
  well : t.WellFormed
  nonempty : base ≠ []
  leads : ∀ q : Path, q ≠ [] → ∃ k, Leads t linksMax (start t.here (base ++ q)) base k root
  dir : t.node? root = some .dir

/-- Nothing but directories stand above the location. -/
def Open (t : Tree) (root : Location) (q : Path) : Prop :=
  ∀ pre, pre <+: q → pre ≠ q →
    t.node? (under root pre) = none ∨ t.node? (under root pre) = some .dir

theorem Open.above (h : t.Open root q) (hpre : pre <+: q) : t.Open root pre := by
  intro front hfront hne
  refine h front (hfront.trans hpre) fun heq => hne ?_
  subst heq
  exact hfront.eq_of_length_le hpre.length_le

/-! ## Walking down -/

theorem leads_under (hwell : t.WellFormed) (hq : q.Plain)
    (hdir : t.node? (under root q) = some .dir) (n : Nat) : Leads t n root q n (under root q) := by
  induction q using List.reverseRecOn with
  | nil => exact .nil
  | append_singleton pre name ih =>
    have hpre : t.node? (under root pre) = some .dir := by
      rw [under_concat] at hdir
      refine hwell.above (show t.node? (name :: under root pre) ≠ none from ?_)
      rw [hdir]
      nofun
    have hwalk := ih (hq.above (List.prefix_append pre [name])) hpre
    rw [under_concat] at hdir ⊢
    exact hwalk.append (.down hq.last.1 hq.last.2 hdir .nil)

/-- Where there is no entry, some name above is the first that is missing. -/
theorem exists_gap (hroot : t.node? root = some .dir) (hopen : t.Open root q)
    (hnone : t.node? (under root q) = none) : ∃ pre name rest, q = pre ++ name :: rest ∧
      t.node? (under root pre) = some .dir ∧ t.node? (name :: under root pre) = none := by
  induction q using List.reverseRecOn with
  | nil =>
    rw [under_nil, hroot] at hnone
    cases hnone
  | append_singleton pre name ih =>
    have hpre : pre <+: pre ++ [name] := List.prefix_append pre [name]
    rcases hopen pre hpre (by simp) with hmissing | hdir
    · obtain ⟨front, next, rest, rfl, hfront, hnext⟩ := ih (hopen.above hpre) hmissing
      exact ⟨front, next, rest ++ [name], by simp, hfront, hnext⟩
    · rw [under_concat] at hnone
      exact ⟨pre, name, [], rfl, hdir, hnone⟩

/-- Names lead to the node below, if there is one and it is no link. -/
theorem locateFrom_under {follow : Bool} {node : Node} (hwell : t.WellFormed)
    (hroot : t.node? root = some .dir) (hq : q.Plain) (hnode : t.node? (under root q) = some node)
    (hlink : ∀ p, node ≠ .link p) (n : Nat) :
    t.locateFrom follow n root q = .ok (.found (under root q) node) := by
  cases q using List.reverseRecOn with
  | nil =>
    rw [under_nil, hroot] at hnode
    rw [locateFrom_nil, Option.some.inj hnode]
    rfl
  | append_singleton pre name =>
    rw [under_concat] at hnode ⊢
    have hdir : t.node? (under root pre) = some .dir := by
      refine hwell.above (show t.node? (name :: under root pre) ≠ none from ?_)
      rw [hnode]
      nofun
    have hpre := leads_under hwell (hq.above (List.prefix_append pre [name])) hdir n
    rw [hpre.locateFrom (.inl (List.cons_ne_nil name []))]
    cases node with
    | dir => rw [locateFrom_dir hq.last.1 hq.last.2 hnode, locateFrom_nil]
    | file content => rw [locateFrom_file hq.last.1 hq.last.2 hnode, if_pos rfl]
    | link target => exact absurd rfl (hlink target)

/-- Names lead nowhere where an entry is missing. -/
theorem entryOf_gap {follow : Bool} {n : Nat} (hwell : t.WellFormed)
    (hroot : t.node? root = some .dir) (hq : q.Plain) (hopen : t.Open root q)
    (hnone : t.node? (under root q) = none) :
    entryOf (t.locateFrom follow n root q) = .error (.system .missing) := by
  obtain ⟨pre, name, rest, rfl, hdir, hmissing⟩ := exists_gap hroot hopen hnone
  have hname := hq name (by simp)
  have hpre := leads_under hwell (hq.above (List.prefix_append pre _)) hdir n
  rw [hpre.locateFrom (.inl (List.cons_ne_nil name rest)),
    locateFrom_missing hname.1 hname.2 hmissing]
  split <;> rfl

/-! ## Entries -/

namespace Rooted

theorem entry (h : t.Rooted base root) (hq : q.Plain) (hne : q ≠ []) (hopen : t.Open root q)
    (hlink : ∀ p, t.node? (under root q) ≠ some (.link p)) (htext : checkText (base ++ q) = .ok ())
    (follow : Bool) :
    t.entry follow (base ++ q) =
      match t.node? (under root q) with
      | some node => .ok (under root q, node)
      | none => .error (.system .missing) := by
  obtain ⟨k, hleads⟩ := h.leads q hne
  rw [entry_eq htext, hleads.locateFrom (.inl hne)]
  cases hnode : t.node? (under root q) with
  | some node =>
    have hfound : t.locateFrom follow k root q = .ok (.found (under root q) node) :=
      locateFrom_under h.well h.dir hq hnode (fun p heq => hlink p (heq ▸ hnode)) k
    rw [hfound]
    rfl
  | none => exact entryOf_gap h.well h.dir hq hopen hnode

theorem lstat (h : t.Rooted base root) (hq : q.Plain) (hne : q ≠ []) (hopen : t.Open root q)
    (hlink : ∀ p, t.node? (under root q) ≠ some (.link p))
    (htext : checkText (base ++ q) = .ok ()) :
    t.lstat (base ++ q) =
      match t.node? (under root q) with
      | some node => .ok node
      | none => .error (.system .missing) := by
  rw [Tree.lstat, h.entry hq hne hopen hlink htext]
  cases t.node? (under root q) <;> rfl

theorem realpath {node : Node} (h : t.Rooted base root) (hq : q.Plain) (hne : q ≠ [])
    (hopen : t.Open root q) (hnode : t.node? (under root q) = some node)
    (hlink : ∀ p, node ≠ .link p) (htext : checkText (base ++ q) = .ok ()) :
    t.realpath (base ++ q) = .ok (under root q) := by
  have hnoLink : ∀ p, t.node? (under root q) ≠ some (.link p) := fun p heq =>
    hlink p (Option.some.inj (hnode.symm.trans heq))
  have hentry := h.entry hq hne hopen hnoLink htext true
  rw [hnode] at hentry
  rw [Tree.realpath, hentry]
  rfl

theorem readFile {old : Option Bytes} (h : t.Rooted base root) (hq : q.Plain) (hne : q ≠ [])
    (hopen : t.Open root q) (hnode : t.node? (under root q) = old.map .file)
    (htext : checkText (base ++ q) = .ok ()) :
    t.readFile (base ++ q) = old.elim (.error (.system .missing)) .ok := by
  have hlink : ∀ p, t.node? (under root q) ≠ some (.link p) := by
    intro p heq
    rw [hnode] at heq
    cases old <;> cases heq
  rw [Tree.readFile, h.entry hq hne hopen hlink htext, hnode]
  cases old <;> rfl

theorem leadsTo (h : t.Rooted base root) (hq : q.Plain) (hne : q ≠ [])
    (hdir : t.node? (under root q) = some .dir) : t.LeadsTo (base ++ q) (under root q) := by
  obtain ⟨k, hleads⟩ := h.leads q hne
  exact ⟨k, hleads.append (leads_under h.well hq hdir k)⟩

/-! ## The path above -/

theorem ends (hname : Path.IsName name) : (base ++ (q ++ [name])).Ends (base ++ q) name [] :=
  ⟨(List.append_assoc base q [name]).symm, hname.1, nofun⟩

theorem isEmpty (hq : q.Plain) (hne : q ≠ []) : Path.isEmpty (base ++ q) = false := by
  obtain ⟨front, last, rfl⟩ := List.eq_nil_or_concat' q |>.resolve_left hne
  exact (ends hq.last.1).isEmpty

theorem leadsTo_above {above : Path} (h : t.Rooted base root) (hq : Path.Plain (q ++ [name]))
    (hparent : Path.parent? (base ++ (q ++ [name])) = some above)
    (hdir : t.node? (under root q) = some .dir) : t.LeadsTo above (under root q) := by
  obtain ⟨k, hleads⟩ := h.leads (q ++ [name]) (by simp)
  refine (leadsTo_parent (ends hq.last.1) hparent).2 ⟨k, hleads.append ?_⟩
  exact leads_under h.well (hq.above (List.prefix_append q [name])) hdir k

/-- The path above is the one with a name less. -/
theorem parent?_eq (base : Path) (hq : Path.Plain (q ++ [name])) (hne : q ≠ []) :
    Path.parent? (base ++ (q ++ [name])) = some (base ++ q) := by
  obtain ⟨front, last, rfl⟩ := List.eq_nil_or_concat' q |>.resolve_left hne
  have hlast : Path.isBlank last = false := (hq last (by simp)).1.1
  rw [(ends hq.last.1).parent?, ← List.append_assoc, Path.dropEnd_concat hlast,
    if_neg (by simp)]

/-- Nothing gets past a location where there is no entry. -/
theorem blocked (h : t.Rooted base root) (hq : Path.Plain (q ++ [name])) (hopen : t.Open root q)
    (hnone : t.node? (under root q) = none) :
    Blocked t linksMax (start t.here (base ++ (q ++ [name]))) (base ++ q) .missing := by
  obtain ⟨k, hleads⟩ := h.leads (q ++ [name]) (by simp)
  obtain ⟨pre, first, rest, rfl, hdir, hmissing⟩ := exists_gap h.dir hopen hnone
  have hfirst := hq first (by simp)
  have hpre : Path.Plain pre := hq.above ⟨first :: rest ++ [name], by simp⟩
  have hwalk := hleads.append (leads_under h.well hpre hdir k)
  generalize start t.here (base ++ (pre ++ first :: rest ++ [name])) = place at hwalk
  rw [← List.append_assoc]
  refine ⟨?_, fun follow r hr => ?_⟩
  · rw [hwalk.locateFrom (.inr rfl), locateFrom_missing hfirst.1 hfirst.2 hmissing]
    split <;> rfl
  · have hmore : rest ++ r ≠ [] := List.append_ne_nil_of_right_ne_nil rest hr
    rw [List.append_assoc, hwalk.locateFrom (.inl (by simp)), List.cons_append,
      locateFrom_missing hfirst.1 hfirst.2 hmissing, if_neg hmore]

end Rooted

theorem node?_insert_cons {d : Location} {node : Node} (a : Location) :
    (t.insert (name :: d) node).node? a = if a = name :: d then some node else t.node? a := by
  rw [node?_insert]
  by_cases ha : a = name :: d
  · rw [if_pos ha, if_pos ⟨by rw [ha]; exact List.cons_ne_nil _ _, ha⟩]
  · rw [if_neg ha, if_neg fun hboth => ha hboth.2]

theorem node?_erase_cons {d : Location} (a : Location) :
    (t.erase (name :: d)).node? a = if a = name :: d then none else t.node? a := by
  rw [node?_erase]
  by_cases ha : a = name :: d
  · rw [if_pos ha, if_pos ⟨by rw [ha]; exact List.cons_ne_nil _ _, ha⟩]
  · rw [if_neg ha, if_neg fun hboth => ha hboth.2]

/-! ## Directories -/

theorem WellFormed.dir_above (h : t.WellFormed) (hdir : t.node? (under root q) = some .dir)
    (hpre : pre <+: q) : t.node? (under root pre) = some .dir := by
  obtain ⟨rest, rfl⟩ := hpre
  induction rest using List.reverseRecOn with
  | nil => rwa [List.append_nil] at hdir
  | append_singleton rest name ih =>
    rw [← List.append_assoc, under_concat] at hdir
    refine ih (h.above (show t.node? (name :: under root (pre ++ rest)) ≠ none from ?_))
    rw [hdir]
    nofun

/-- A tree with other files, and perhaps with more directories, has the same root. -/
theorem Rooted.of_kept (h : t.Rooted base root) (hhere : t'.here = t.here) (hwell : t'.WellFormed)
    (hkept : ∀ a node, t.node? a = some node → (∀ content, node ≠ .file content) →
      t'.node? a = some node) : t'.Rooted base root where
  well := hwell
  nonempty := h.nonempty
  leads := by
    intro q hq
    obtain ⟨k, hleads⟩ := h.leads q hq
    rw [hhere]
    exact ⟨k, hleads.mono hkept⟩
  dir := hkept root .dir h.dir nofun

/-- A name below a directory is none of those above it. -/
theorem under_ne_below (hpre : pre <+: q) : under root pre ≠ name :: under root q := by
  rw [← under_concat, ne_eq, under_inj]
  rintro rfl
  have hlen := hpre.length_le
  rw [List.length_append, List.length_singleton] at hlen
  omega

/-- Where directories are made and nothing but directories stood, nothing is lost. -/
theorem kept_or_away (hmade : ∀ pre, pre <+: q → t'.node? (under root pre) = some .dir)
    (hclear : ∀ pre, pre <+: q → t.node? (under root pre) = none ∨
      t.node? (under root pre) = some .dir) {a : Location} {node : Node}
    (hnode : t.node? a = some node) :
    t'.node? a = some node ∨ ∀ pre, pre <+: q → a ≠ under root pre := by
  by_cases ha : ∃ pre, pre <+: q ∧ a = under root pre
  · obtain ⟨pre, hpre, rfl⟩ := ha
    rcases hclear pre hpre with hnone | hdir
    · rw [hnone] at hnode
      cases hnode
    · rw [hmade pre hpre, ← hdir, hnode]
      exact .inl rfl
  · exact .inr fun pre hpre heq => ha ⟨pre, hpre, heq⟩

/-- The directories down to `q` are there, and all else is as before. -/
structure Paved (t : Tree) (root : Location) (q : Path) (t' : Tree) : Prop where
  here : t'.here = t.here
  well : t'.WellFormed
  made : ∀ pre, pre <+: q → t'.node? (under root pre) = some .dir
  others : ∀ a, (∀ pre, pre <+: q → a ≠ under root pre) → t'.node? a = t.node? a

namespace Paved

theorem refl (hwell : t.WellFormed) (hdir : t.node? (under root q) = some .dir) :
    Paved t root q t :=
  ⟨rfl, hwell, fun _ hpre => hwell.dir_above hdir hpre, fun _ _ => rfl⟩

theorem insert (h : Paved t root q t') (name : String) :
    Paved t root (q ++ [name]) (t'.insert (name :: under root q) .dir) := by
  have hdir := h.made q (List.prefix_refl q)
  refine ⟨h.here, h.well.insert_dir hdir, fun pre hpre => ?_, fun a ha => ?_⟩
  · rw [node?_insert_cons]
    rcases List.prefix_concat_iff.1 hpre with heq | hpre
    · rw [heq, under_concat, if_pos rfl]
    · split
      · rfl
      · exact h.made pre hpre
  · rw [node?_insert_cons, if_neg fun heq => ha _ (List.prefix_refl _) (by rw [under_concat, heq])]
    exact h.others a fun pre hpre => ha pre (hpre.trans (List.prefix_append q [name]))

/-- Where nothing but directories stood, nothing was lost. -/
theorem kept (h : Paved t root q t')
    (hclear : ∀ pre, pre <+: q → t.node? (under root pre) = none ∨
      t.node? (under root pre) = some .dir) {a : Location} {node : Node}
    (hnode : t.node? a = some node) : t'.node? a = some node := by
  rcases kept_or_away h.made hclear hnode with hkept | haway
  · exact hkept
  · rw [h.others a haway, hnode]

end Paved

theorem makeDir_under (h : t.Rooted base root) (hq : Path.Plain (q ++ [name]))
    (hdir : t.node? (under root q) = some .dir) (hnone : t.node? (name :: under root q) = none)
    (htext : checkText (base ++ (q ++ [name])) = .ok ()) :
    t.makeDir (base ++ (q ++ [name])) = .ok (t.insert (name :: under root q) .dir) := by
  obtain ⟨above, hparent⟩ : ∃ above, Path.parent? (base ++ (q ++ [name])) = some above :=
    ⟨_, (Rooted.ends hq.last.1).parent?⟩
  rw [makeDir_eq (Rooted.ends hq.last.1) hq.last.1.2 hparent htext
    (h.leadsTo_above hq hparent hdir), if_neg (Nat.not_lt.2 hq.last.2), hnone]

/-- Directories are made down to `q` where nothing stands in the way. -/
theorem makeDirAllFrom_under (h : t.Rooted base root) :
    ∀ {q : Path} {depth : Nat}, q.Plain → q ≠ [] → q.length ≤ depth →
      (∀ pre, pre <+: q → t.node? (under root pre) = none ∨
        t.node? (under root pre) = some .dir) → checkText (base ++ q) = .ok () →
      ∃ t', makeDirAllFrom depth (base ++ q) t = (.ok (), t') ∧ Paved t root q t' := by
  intro q
  induction q using List.reverseRecOn with
  | nil => exact fun _ hne => absurd rfl hne
  | append_singleton pre name ih =>
    intro depth hq _ hdepth hclear htext
    have hends : Path.Ends (base ++ (pre ++ [name])) (base ++ pre) name [] :=
      Rooted.ends hq.last.1
    have hshort : pre <+: pre ++ [name] := List.prefix_append pre [name]
    rcases hclear pre hshort with hnone | hdir
    · have hne : pre ≠ [] := by
        rintro rfl
        rw [under_nil, h.dir] at hnone
        cases hnone
      have hopen : t.Open root pre := fun front hfront _ => hclear front (hfront.trans hshort)
      have hmake := makeDir_of_bad_slot (slot_of_blocked hends htext (h.blocked hq hopen hnone))
      have hparent := Rooted.parent?_eq base hq hne
      have htext' : checkText (base ++ pre) = .ok () := by
        rw [← List.append_assoc] at htext
        exact checkText_of_append htext (Rooted.isEmpty (hq.above hshort) hne)
      obtain ⟨depth, rfl⟩ : ∃ less, depth = less + 1 := by
        rw [List.length_append, List.length_singleton] at hdepth
        exact ⟨depth - 1, by omega⟩
      obtain ⟨t₁, hall, hpaved⟩ := ih (hq.above hshort) hne
        (show pre.length ≤ depth by simpa using hdepth)
        (fun front hfront => hclear front (hfront.trans hshort)) htext'
      have hrooted : t₁.Rooted base root := h.of_kept hpaved.here hpaved.well fun a node hnode _ =>
        hpaved.kept (fun front hfront => hclear front (hfront.trans hshort)) hnode
      have hvacant : t₁.node? (name :: under root pre) = none := by
        rw [hpaved.others _ fun front hfront heq => under_ne_below hfront heq.symm]
        by_contra hsome
        rw [h.well.above hsome] at hnone
        cases hnone
      refine ⟨_, ?_, hpaved.insert name⟩
      rw [makeDirAllFrom_succ hends.isEmpty hmake hparent, hall]
      dsimp only
      rw [makeDir_under hrooted hq (hpaved.made pre (List.prefix_refl pre)) hvacant htext]
    · rcases hclear _ (List.prefix_refl _) with hnone | hself
      · rw [under_concat] at hnone
        exact ⟨_, makeDirAllFrom_of_ok depth hends.isEmpty (makeDir_under h hq hdir hnone htext),
          (Paved.refl h.well hdir).insert name⟩
      · obtain ⟨above, hparent⟩ : ∃ above, Path.parent? (base ++ (pre ++ [name])) = some above :=
          ⟨_, hends.parent?⟩
        exact ⟨t, makeDirAllFrom_of_leadsTo depth hends hparent htext
          (h.leadsTo hq (by simp) hself), Paved.refl h.well hself⟩

/-! ## Files -/

/-- The directories down to `q` are there, and all else is as before but for one name in the last
one. -/
structure Around (t : Tree) (root : Location) (q : Path) (name : String) (t' : Tree) : Prop where
  here : t'.here = t.here
  well : t'.WellFormed
  made : ∀ pre, pre <+: q → t'.node? (under root pre) = some .dir
  others : ∀ a, a ≠ name :: under root q → (∀ pre, pre <+: q → a ≠ under root pre) →
    t'.node? a = t.node? a

theorem Paved.around (h : Paved t root q t') (name : String) : Around t root q name t' :=
  ⟨h.here, h.well, h.made, fun a _ => h.others a⟩

namespace Around

theorem change {t'' : Tree} (h : Around t root q name t')
    (hleaf : t'.node? (name :: under root q) ≠ some .dir) (hhere : t''.here = t'.here)
    (hothers : ∀ a, a ≠ name :: under root q → t''.node? a = t'.node? a) :
    Around t root q name t'' where
  here := hhere.trans h.here
  well := h.well.of_leaf (h.made q (List.prefix_refl q)) hleaf hhere hothers
  made := by
    intro pre hpre
    rw [hothers _ (under_ne_below hpre)]
    exact h.made pre hpre
  others := by
    intro a ha hnot
    rw [hothers a ha]
    exact h.others a ha hnot

theorem file (h : Around t root q name t') (hleaf : t'.node? (name :: under root q) ≠ some .dir)
    (content : Bytes) :
    Around t root q name (t'.insert (name :: under root q) (.file content)) :=
  h.change hleaf rfl fun a ha => by rw [node?_insert_cons, if_neg ha]

theorem erase (h : Around t root q name t') (hleaf : t'.node? (name :: under root q) ≠ some .dir) :
    Around t root q name (t'.erase (name :: under root q)) :=
  h.change hleaf rfl fun a ha => by rw [node?_erase_cons, if_neg ha]

theorem paved (h : Around t root q name t')
    (hsame : t'.node? (name :: under root q) = t.node? (name :: under root q)) :
    Paved t root q t' := by
  refine ⟨h.here, h.well, h.made, fun a hnot => ?_⟩
  by_cases ha : a = name :: under root q
  · rw [ha, hsame]
  · exact h.others a ha hnot

/-- The root is the same if no directory and no link was lost. -/
theorem rooted (h : Around t root q name t') (hrooted : t.Rooted base root)
    (hclear : ∀ pre, pre <+: q → t.node? (under root pre) = none ∨
      t.node? (under root pre) = some .dir)
    (hfile : ∀ node, t.node? (name :: under root q) = some node → ∃ old, node = .file old) :
    t'.Rooted base root := by
  refine hrooted.of_kept h.here h.well fun a node hnode hnofile => ?_
  rcases kept_or_away h.made hclear hnode with hkept | haway
  · exact hkept
  · by_cases hself : a = name :: under root q
    · subst hself
      obtain ⟨old, rfl⟩ := hfile node hnode
      exact absurd rfl (hnofile old)
    · rw [h.others a hself haway, hnode]

end Around

/-! ## Operations on files -/

section

variable {content : Bytes}

theorem slot_under (h : t.Rooted base root) (hq : Path.Plain (q ++ [name]))
    (hdir : t.node? (under root q) = some .dir)
    (htext : checkText (base ++ (q ++ [name])) = .ok ()) :
    t.slot (base ++ (q ++ [name])) = .ok ⟨under root q, name, false⟩ := by
  obtain ⟨above, hparent⟩ : ∃ above, Path.parent? (base ++ (q ++ [name])) = some above :=
    ⟨_, (Rooted.ends hq.last.1).parent?⟩
  exact slot_of_leadsTo (Rooted.ends hq.last.1) hparent htext (h.leadsTo_above hq hparent hdir)

theorem nodeIn?_of_fits {d : Location} (hfits : name.utf8ByteSize ≤ nameMax) :
    t.nodeIn? ⟨d, name, false⟩ = .ok (t.node? (name :: d)) :=
  if_neg (Nat.not_lt.2 hfits)

theorem writeFile_under (h : t.Rooted base root) (hq : Path.Plain (q ++ [name]))
    (hdir : t.node? (under root q) = some .dir)
    (hnode : ∀ node, t.node? (name :: under root q) = some node → ∃ old, node = .file old)
    (htext : checkText (base ++ (q ++ [name])) = .ok ()) (content : Bytes) :
    t.writeFile (base ++ (q ++ [name])) content =
      .ok (t.insert (name :: under root q) (.file content)) := by
  obtain ⟨above, hparent⟩ : ∃ above, Path.parent? (base ++ (q ++ [name])) = some above :=
    ⟨_, (Rooted.ends hq.last.1).parent?⟩
  rw [writeFile_eq (Rooted.ends hq.last.1) hq.last.1.2 hparent (h.leadsTo_above hq hparent hdir)
    content hnode, htext]
  exact if_neg (Nat.not_lt.2 hq.last.2)

/-- A file is removed; where there is none, the entry is missing. -/
theorem removeFile_under {old : Option Bytes} (h : t.Rooted base root)
    (hq : Path.Plain (q ++ [name])) (hopen : t.Open root (q ++ [name]))
    (hnode : t.node? (name :: under root q) = old.map .file)
    (htext : checkText (base ++ (q ++ [name])) = .ok ()) :
    t.removeFile (base ++ (q ++ [name])) =
      old.elim (.error (.system .missing)) fun _ => .ok (t.erase (name :: under root q)) := by
  have hshort : q <+: q ++ [name] := List.prefix_append q [name]
  rcases hopen q hshort (by simp) with hnone | hdir
  · have hold : old = none := by
      cases old with
      | none => rfl
      | some content =>
        have habove := h.well.above (show t.node? (name :: under root q) ≠ none by
          rw [hnode]
          nofun)
        rw [hnone] at habove
        cases habove
    have hblocked := h.blocked hq (hopen.above hshort) hnone
    rw [removeFile, slot_of_blocked (Rooted.ends hq.last.1) htext hblocked, hold]
    rfl
  · have hplain : Slot.isSpecial ⟨under root q, name, false⟩ = false := isSpecial_eq_false hq.last.1
    rw [removeFile, slot_under h hq hdir htext]
    show (if Slot.isSpecial ⟨under root q, name, false⟩ = true then _ else _) = _
    rw [if_neg (by rw [hplain]; exact Bool.false_ne_true), nodeIn?_of_fits hq.last.2, hnode]
    cases old <;> rfl

theorem rename_under {other : String} (h : t.Rooted base root) (hq : Path.Plain (q ++ [name]))
    (hother : Path.Plain (q ++ [other])) (hdir : t.node? (under root q) = some .dir)
    (hfile : t.node? (name :: under root q) = some (.file content))
    (htarget : t.node? (other :: under root q) ≠ some .dir)
    (htext : checkText (base ++ (q ++ [name])) = .ok ())
    (htext' : checkText (base ++ (q ++ [other])) = .ok ()) :
    t.rename (base ++ (q ++ [name])) (base ++ (q ++ [other])) =
      .ok ((t.erase (name :: under root q)).insert (other :: under root q) (.file content)) := by
  have hplain : Slot.isSpecial ⟨under root q, name, false⟩ = false := isSpecial_eq_false hq.last.1
  have hplain' : Slot.isSpecial ⟨under root q, other, false⟩ = false :=
    isSpecial_eq_false hother.last.1
  rw [rename, slot_under h hq hdir htext, slot_under h hother hdir htext']
  show (if Slot.isSpecial ⟨under root q, name, false⟩ = true ∨
    Slot.isSpecial ⟨under root q, other, false⟩ = true then _ else _) = _
  rw [if_neg (by rw [hplain, hplain']; simp), nodeIn?_of_fits hq.last.2,
    nodeIn?_of_fits hother.last.2, hfile]
  exact if_neg htarget

end

end Tree

end ChunkedUpload.Files
