import ChunkedUpload.Files.Tree

/-!
# Walks that lead to a directory

What a walk meets under its first name is one of five things (`passes_of_locateFrom`), and what is
found in the end is found by induction on that (`walk_induction`).

`Leads t n loc p k d`: from the directory `loc`, the pieces of `p` lead to the directory `d`, and of
the `n` links that may be followed `k` are left. Walking on from there is walking on from `d`
(`Leads.locateFrom`). A path that does not lead to a directory blocks every longer one, always with
the same error (`leads_or_blocked`). So what a path does is known from what the path above it does.
-/

namespace ChunkedUpload.Files

/-- A piece that names an entry of a directory. -/
def Path.IsName (piece : String) : Prop := isBlank piece = false ∧ piece ≠ ".."

theorem Path.IsName.of_ne {piece : String} (hempty : piece ≠ "") (hdot : piece ≠ ".")
    (hup : piece ≠ "..") : Path.IsName piece :=
  ⟨by rw [isBlank, decide_eq_false hempty, decide_eq_false hdot]; rfl, hup⟩

namespace Tree

variable {t : Tree} {follow : Bool} {n : Nat} {loc : Location} {piece : String} {rest : Path}

/-! ## One piece at a time -/

@[simp] theorem locateFrom_nil : t.locateFrom follow n loc [] = .ok (.found loc .dir) := by
  cases n <;> rfl

/-- How a walk goes on where a name has a node. -/
def past (t : Tree) (follow : Bool) (n : Nat) (loc : Location) (piece : String) (rest : Path) :
    Option Node → Except Errno Spot
  | none => if rest = [] then .ok (.vacant (piece :: loc)) else .error .missing
  | some .dir => t.locateFrom follow n (piece :: loc) rest
  | some (.file content) =>
    if rest = [] then .ok (.found (piece :: loc) (.file content)) else .error .notDirectory
  | some (.link target) =>
    if rest = [] ∧ !follow then .ok (.found (piece :: loc) (.link target))
    else
      match n with
      | 0 => .error .tooManyLinks
      | links + 1 => t.locateFrom follow links (start loc target) (target ++ rest)

/-- One piece, however many links may still be followed. -/
theorem locateFrom_cons : t.locateFrom follow n loc (piece :: rest) =
    if Path.isBlank piece then t.locateFrom follow n loc rest
    else if piece = ".." then t.locateFrom follow n loc.tail rest
    else if nameMax < piece.utf8ByteSize then .error .nameTooLong
    else t.past follow n loc piece rest (t.node? (piece :: loc)) := by
  cases n <;> rfl

theorem locateFrom_blank (h : Path.isBlank piece = true) :
    t.locateFrom follow n loc (piece :: rest) = t.locateFrom follow n loc rest := by
  rw [locateFrom_cons, if_pos h]

theorem locateFrom_up :
    t.locateFrom follow n loc (".." :: rest) = t.locateFrom follow n loc.tail rest := by
  rw [locateFrom_cons, if_neg (by decide), if_pos rfl]

theorem locateFrom_name (h : Path.IsName piece) (hfits : piece.utf8ByteSize ≤ nameMax) :
    t.locateFrom follow n loc (piece :: rest) =
      t.past follow n loc piece rest (t.node? (piece :: loc)) := by
  rw [locateFrom_cons, if_neg (by rw [h.1]; exact Bool.false_ne_true), if_neg h.2,
    if_neg (Nat.not_lt.2 hfits)]

theorem locateFrom_long (h : Path.IsName piece) (hlong : nameMax < piece.utf8ByteSize) :
    t.locateFrom follow n loc (piece :: rest) = .error .nameTooLong := by
  rw [locateFrom_cons, if_neg (by rw [h.1]; exact Bool.false_ne_true), if_neg h.2, if_pos hlong]

theorem locateFrom_missing (h : Path.IsName piece) (hfits : piece.utf8ByteSize ≤ nameMax)
    (hnode : t.node? (piece :: loc) = none) :
    t.locateFrom follow n loc (piece :: rest) =
      if rest = [] then .ok (.vacant (piece :: loc)) else .error .missing := by
  rw [locateFrom_name h hfits, hnode]
  rfl

theorem locateFrom_dir (h : Path.IsName piece) (hfits : piece.utf8ByteSize ≤ nameMax)
    (hnode : t.node? (piece :: loc) = some .dir) :
    t.locateFrom follow n loc (piece :: rest) = t.locateFrom follow n (piece :: loc) rest := by
  rw [locateFrom_name h hfits, hnode]
  rfl

theorem locateFrom_file {content : Bytes} (h : Path.IsName piece)
    (hfits : piece.utf8ByteSize ≤ nameMax) (hnode : t.node? (piece :: loc) = some (.file content)) :
    t.locateFrom follow n loc (piece :: rest) =
      if rest = [] then .ok (.found (piece :: loc) (.file content)) else .error .notDirectory := by
  rw [locateFrom_name h hfits, hnode]
  rfl

theorem locateFrom_link_end {target : Path} (h : Path.IsName piece)
    (hfits : piece.utf8ByteSize ≤ nameMax) (hnode : t.node? (piece :: loc) = some (.link target)) :
    t.locateFrom false n loc [piece] = .ok (.found (piece :: loc) (.link target)) := by
  rw [locateFrom_name h hfits, hnode]
  rfl

/-- A link is followed if there is more of the path, or if links at the end are followed, too. -/
theorem locateFrom_link {target : Path} (h : Path.IsName piece)
    (hfits : piece.utf8ByteSize ≤ nameMax) (hnode : t.node? (piece :: loc) = some (.link target))
    (hon : rest ≠ [] ∨ follow = true) :
    t.locateFrom follow n loc (piece :: rest) =
      match n with
      | 0 => .error .tooManyLinks
      | links + 1 => t.locateFrom follow links (start loc target) (target ++ rest) := by
  have hgo : ¬(rest = [] ∧ (!follow) = true) := by
    rintro ⟨hnil, hstay⟩
    rcases hon with h | h
    · exact h hnil
    · rw [h] at hstay
      cases hstay
  rw [locateFrom_name h hfits, hnode]
  exact if_neg hgo

theorem locateFrom_link_zero {target : Path} (h : Path.IsName piece)
    (hfits : piece.utf8ByteSize ≤ nameMax) (hnode : t.node? (piece :: loc) = some (.link target))
    (hon : rest ≠ [] ∨ follow = true) :
    t.locateFrom follow 0 loc (piece :: rest) = .error .tooManyLinks :=
  locateFrom_link h hfits hnode hon

theorem locateFrom_link_succ {target : Path} (h : Path.IsName piece)
    (hfits : piece.utf8ByteSize ≤ nameMax) (hnode : t.node? (piece :: loc) = some (.link target))
    (hon : rest ≠ [] ∨ follow = true) :
    t.locateFrom follow (n + 1) loc (piece :: rest) =
      t.locateFrom follow n (start loc target) (target ++ rest) :=
  locateFrom_link h hfits hnode hon

/-- Induction along a walk: on the links that may still be followed and, between two of them, on the
pieces. -/
theorem walk_induction {motive : Nat → Location → Path → Prop}
    (nil : ∀ n loc, motive n loc [])
    (blank : ∀ n loc piece rest, Path.isBlank piece = true → motive n loc rest →
      motive n loc (piece :: rest))
    (up : ∀ n loc rest, motive n loc.tail rest → motive n loc (".." :: rest))
    (name : ∀ n loc piece rest, Path.IsName piece → motive n (piece :: loc) rest →
      (∀ m target, n = m + 1 → motive m (start loc target) (target ++ rest)) →
      motive n loc (piece :: rest)) (n : Nat) (loc : Location) (p : Path) : motive n loc p := by
  have pieces : ∀ n, (∀ m loc p, n = m + 1 → motive m loc p) → ∀ p loc, motive n loc p := by
    intro n hlinks p
    induction p with
    | nil => exact nil n
    | cons piece rest ih =>
      intro loc
      by_cases hblank : Path.isBlank piece = true
      · exact blank n loc piece rest hblank (ih loc)
      · by_cases hup : piece = ".."
        · subst hup
          exact up n loc rest (ih loc.tail)
        · exact name n loc piece rest ⟨by simpa using hblank, hup⟩ (ih (piece :: loc))
            fun m target hm => hlinks m _ _ hm
  induction n generalizing loc p with
  | zero => exact pieces 0 (fun _ _ _ h => nomatch h) p loc
  | succ n ih => exact pieces (n + 1) (fun m loc p h => Nat.succ.inj h ▸ ih loc p) p loc

/-- What a walk that comes to an end meets under its first name: nothing, a directory or a link
through which it goes on, or the file or the link that it ends with. -/
inductive Passes (t : Tree) (follow : Bool) (n : Nat) (loc : Location) (piece : String)
    (rest : Path) : Spot → Prop
  | vacant : t.node? (piece :: loc) = none → rest = [] →
      Passes t follow n loc piece rest (.vacant (piece :: loc))
  | dir {spot : Spot} : t.node? (piece :: loc) = some .dir →
      t.locateFrom follow n (piece :: loc) rest = .ok spot → Passes t follow n loc piece rest spot
  | file {content : Bytes} : t.node? (piece :: loc) = some (.file content) → rest = [] →
      Passes t follow n loc piece rest (.found (piece :: loc) (.file content))
  | link {m : Nat} {target : Path} {spot : Spot} : n = m + 1 → rest ≠ [] ∨ follow = true →
      t.node? (piece :: loc) = some (.link target) →
      t.locateFrom follow m (start loc target) (target ++ rest) = .ok spot →
      Passes t follow n loc piece rest spot
  | last {target : Path} : t.node? (piece :: loc) = some (.link target) → rest = [] →
      follow = false → Passes t follow n loc piece rest (.found (piece :: loc) (.link target))

theorem passes_of_locateFrom {spot : Spot} (hname : Path.IsName piece)
    (h : t.locateFrom follow n loc (piece :: rest) = .ok spot) :
    piece.utf8ByteSize ≤ nameMax ∧ Passes t follow n loc piece rest spot := by
  by_cases hfits : piece.utf8ByteSize ≤ nameMax
  · refine ⟨hfits, ?_⟩
    rcases hnode : t.node? (piece :: loc) with _ | _ | content | target
    · rw [locateFrom_missing hname hfits hnode] at h
      split at h <;> cases h
      exact .vacant hnode ‹_›
    · rw [locateFrom_dir hname hfits hnode] at h
      exact .dir hnode h
    · rw [locateFrom_file hname hfits hnode] at h
      split at h <;> cases h
      exact .file hnode ‹_›
    · by_cases hon : rest ≠ [] ∨ follow = true
      · cases n with
        | zero =>
          rw [locateFrom_link_zero hname hfits hnode hon] at h
          cases h
        | succ m =>
          rw [locateFrom_link_succ hname hfits hnode hon] at h
          exact .link rfl hon hnode h
      · rw [not_or, Decidable.not_not, Bool.not_eq_true] at hon
        obtain ⟨rfl, rfl⟩ := hon
        rw [locateFrom_link_end hname hfits hnode] at h
        cases h
        exact .last hnode rfl rfl
  · rw [locateFrom_long hname (Nat.not_le.1 hfits)] at h
    cases h

/-! ## Leading to a directory -/

/-- From `loc`, `p` leads to a directory, with so many links left to follow. -/
inductive Leads (t : Tree) : Nat → Location → Path → Nat → Location → Prop
  | nil {n : Nat} {loc : Location} : Leads t n loc [] n loc
  | blank {n k : Nat} {loc d : Location} {piece : String} {rest : Path} :
      Path.isBlank piece = true → Leads t n loc rest k d → Leads t n loc (piece :: rest) k d
  | up {n k : Nat} {loc d : Location} {rest : Path} :
      Leads t n loc.tail rest k d → Leads t n loc (".." :: rest) k d
  | down {n k : Nat} {loc d : Location} {piece : String} {rest : Path} :
      Path.IsName piece → piece.utf8ByteSize ≤ nameMax → t.node? (piece :: loc) = some .dir →
      Leads t n (piece :: loc) rest k d → Leads t n loc (piece :: rest) k d
  | link {n k : Nat} {loc d : Location} {piece : String} {rest target : Path} :
      Path.IsName piece → piece.utf8ByteSize ≤ nameMax →
      t.node? (piece :: loc) = some (.link target) →
      Leads t n (start loc target) (target ++ rest) k d → Leads t (n + 1) loc (piece :: rest) k d

namespace Leads

variable {k m : Nat} {d e : Location} {p q : Path}

/-- To walk on is to walk on from the directory. -/
theorem locateFrom (h : Leads t n loc p k d) (hon : q ≠ [] ∨ follow = true) :
    t.locateFrom follow n loc (p ++ q) = t.locateFrom follow k d q := by
  induction h with
  | nil => rfl
  | blank hblank _ ih => rw [List.cons_append, locateFrom_blank hblank, ih]
  | up _ ih => rw [List.cons_append, locateFrom_up, ih]
  | down hname hfits hnode _ ih => rw [List.cons_append, locateFrom_dir hname hfits hnode, ih]
  | @link _ _ _ _ _ rest _ hname hfits hnode _ ih =>
    have hon' : rest ++ q ≠ [] ∨ follow = true :=
      hon.imp (List.append_ne_nil_of_right_ne_nil rest) id
    rw [List.cons_append, locateFrom_link_succ hname hfits hnode hon', ← List.append_assoc, ih]

theorem found (h : Leads t n loc p k d) : t.locateFrom true n loc p = .ok (.found d .dir) := by
  rw [← List.append_nil p, h.locateFrom (.inr rfl), locateFrom_nil]

theorem unique (h : Leads t n loc p k d) (h' : Leads t n loc p m e) : d = e := by
  have hfound := h.found.symm.trans h'.found
  cases hfound
  rfl

/-- With or without the last link followed, there is an entry. -/
theorem exists_found (h : Leads t n loc p k d) :
    ∃ l node, t.locateFrom follow n loc p = .ok (.found l node) := by
  cases follow with
  | true => exact ⟨d, .dir, h.found⟩
  | false =>
    induction h with
    | nil => exact ⟨_, _, locateFrom_nil⟩
    | blank hblank _ ih => rwa [locateFrom_blank hblank]
    | up _ ih => rwa [locateFrom_up]
    | down hname hfits hnode _ ih => rwa [locateFrom_dir hname hfits hnode]
    | @link _ _ _ _ _ rest _ hname hfits hnode _ ih =>
      by_cases hrest : rest = []
      · subst hrest
        exact ⟨_, _, locateFrom_link_end hname hfits hnode⟩
      · rwa [locateFrom_link_succ hname hfits hnode (.inl hrest)]

theorem append (h : Leads t n loc p k d) (h' : Leads t k d q m e) :
    Leads t n loc (p ++ q) m e := by
  induction h with
  | nil => exact h'
  | blank hblank _ ih => exact .blank hblank (ih h')
  | up _ ih => exact .up (ih h')
  | down hname hfits hnode _ ih => exact .down hname hfits hnode (ih h')
  | link hname hfits hnode _ ih =>
    have hrest := ih h'
    rw [List.append_assoc] at hrest
    exact .link hname hfits hnode hrest

/-- Blank pieces lead nowhere else. -/
theorem blanks (hblank : ∀ piece ∈ q, Path.isBlank piece = true) : Leads t n loc q n loc := by
  induction q with
  | nil => exact .nil
  | cons piece rest ih =>
    exact .blank (hblank _ List.mem_cons_self)
      (ih fun piece h => hblank piece (List.mem_cons_of_mem _ h))

/-- A tree that keeps the directories and the links leads to the same directories. -/
theorem mono {t' : Tree} (hkept : ∀ a node, t.node? a = some node →
    (∀ content, node ≠ .file content) → t'.node? a = some node) (h : Leads t n loc p k d) :
    Leads t' n loc p k d := by
  induction h with
  | nil => exact .nil
  | blank hblank _ ih => exact .blank hblank ih
  | up _ ih => exact .up ih
  | down hname hfits hnode _ ih =>
    exact .down hname hfits (hkept _ _ hnode nofun) ih
  | link hname hfits hnode _ ih =>
    exact .link hname hfits (hkept _ _ hnode nofun) ih

end Leads

/-- The error that stands in the way of any further piece after a walk has ended elsewhere than in
a directory. -/
def obstacle? : Except Errno Spot → Option Errno
  | .ok (.found _ (.file _)) => some .notDirectory
  | .ok (.found _ _) => none
  | .ok (.vacant _) => some .missing
  | .error error => some error

/-- `error` stands in the way of every path that goes on after `p`. -/
def Blocked (t : Tree) (n : Nat) (loc : Location) (p : Path) (error : Errno) : Prop :=
  obstacle? (t.locateFrom true n loc p) = some error ∧
    ∀ (follow : Bool) (q : Path), q ≠ [] → t.locateFrom follow n loc (p ++ q) = .error error

theorem Blocked.of_cons {error : Errno}
    (hon : ∀ follow : Bool, ∀ q : Path, q ≠ [] →
      t.locateFrom follow n loc (piece :: q) = .error error)
    (hend : rest = [] → obstacle? (t.locateFrom true n loc [piece]) = some error) :
    Blocked t n loc (piece :: rest) error := by
  refine ⟨?_, fun follow q hq => hon follow _ (List.append_ne_nil_of_right_ne_nil rest hq)⟩
  by_cases hrest : rest = []
  · subst hrest
    exact hend rfl
  · rw [hon true rest hrest]
    rfl

/-- A path leads to a directory, or something stands in the way. -/
theorem leads_or_blocked (t : Tree) (n : Nat) (loc : Location) (p : Path) :
    (∃ k d, Leads t n loc p k d) ∨ ∃ error, Blocked t n loc p error := by
  induction n, loc, p using walk_induction with
  | nil n loc => exact .inl ⟨n, loc, .nil⟩
  | blank n loc piece rest hblank ih =>
    obtain ⟨k, d, h⟩ | ⟨error, hend, hon⟩ := ih
    · exact .inl ⟨k, d, .blank hblank h⟩
    · refine .inr ⟨error, by rwa [locateFrom_blank hblank], fun follow q hq => ?_⟩
      rw [List.cons_append, locateFrom_blank hblank, hon follow q hq]
  | up n loc rest ih =>
    obtain ⟨k, d, h⟩ | ⟨error, hend, hon⟩ := ih
    · exact .inl ⟨k, d, .up h⟩
    · refine .inr ⟨error, by rwa [locateFrom_up], fun follow q hq => ?_⟩
      rw [List.cons_append, locateFrom_up, hon follow q hq]
  | name n loc piece rest hname hdown hlink =>
    by_cases hfits : piece.utf8ByteSize ≤ nameMax
    · cases hnode : t.node? (piece :: loc) with
      | none =>
        refine .inr ⟨.missing, .of_cons (fun follow q hq => ?_) fun _ => ?_⟩
        · rw [locateFrom_missing hname hfits hnode, if_neg hq]
        · rw [locateFrom_missing hname hfits hnode]
          rfl
      | some node =>
        cases node with
        | dir =>
          rcases hdown with ⟨k, d, h⟩ | ⟨error, hend, hon⟩
          · exact .inl ⟨k, d, .down hname hfits hnode h⟩
          · refine .inr ⟨error, by rwa [locateFrom_dir hname hfits hnode], fun follow q hq => ?_⟩
            rw [List.cons_append, locateFrom_dir hname hfits hnode, hon follow q hq]
        | file content =>
          refine .inr ⟨.notDirectory, .of_cons (fun follow q hq => ?_) fun _ => ?_⟩
          · rw [locateFrom_file hname hfits hnode, if_neg hq]
          · rw [locateFrom_file hname hfits hnode]
            rfl
        | link target =>
          cases n with
          | zero =>
            refine .inr ⟨.tooManyLinks, .of_cons (fun follow q hq => ?_) fun _ => ?_⟩
            · rw [locateFrom_link_zero hname hfits hnode (.inl hq)]
            · rw [locateFrom_link_zero hname hfits hnode (.inr rfl)]
              rfl
          | succ m =>
            rcases hlink m target rfl with ⟨k, d, h⟩ | ⟨error, hend, hon⟩
            · exact .inl ⟨k, d, .link hname hfits hnode h⟩
            · refine .inr ⟨error, by rwa [locateFrom_link_succ hname hfits hnode (.inr rfl)],
                fun follow q hq => ?_⟩
              rw [List.cons_append, locateFrom_link_succ hname hfits hnode
                (.inl (List.append_ne_nil_of_right_ne_nil rest hq)), ← List.append_assoc,
                hon follow q hq]
    · have hlong : nameMax < piece.utf8ByteSize := Nat.not_le.1 hfits
      refine .inr ⟨.nameTooLong, .of_cons (fun follow q hq => ?_) fun _ => ?_⟩
      · rw [locateFrom_long hname hlong]
      · rw [locateFrom_long hname hlong]
        rfl

/-- What is found behind all links has an entry of its own, too. -/
theorem exists_found_of_found {p : Path} : ∀ {l : Location} {node : Node},
    t.locateFrom true n loc p = .ok (.found l node) →
    ∃ l' node', t.locateFrom false n loc p = .ok (.found l' node') := by
  induction n, loc, p using walk_induction with
  | nil n loc => exact fun _ => ⟨_, _, locateFrom_nil⟩
  | blank n loc piece rest hblank ih =>
    intro l node h
    rw [locateFrom_blank hblank] at h ⊢
    exact ih h
  | up n loc rest ih =>
    intro l node h
    rw [locateFrom_up] at h ⊢
    exact ih h
  | name n loc piece rest hname hdown hlink =>
    intro l node h
    obtain ⟨hfits, hpasses⟩ := passes_of_locateFrom hname h
    cases hpasses with
    | dir hnode hon =>
      rw [locateFrom_dir hname hfits hnode]
      exact hdown hon
    | file hnode hrest => exact ⟨_, _, (locateFrom_file hname hfits hnode).trans (if_pos hrest)⟩
    | @link m target _ hn _ hnode hon =>
      subst hn
      by_cases hrest : rest = []
      · subst hrest
        exact ⟨_, _, locateFrom_link_end hname hfits hnode⟩
      · rw [locateFrom_link_succ hname hfits hnode (.inl hrest)]
        exact hlink m target rfl hon
    | last _ _ hfollow => cases hfollow

theorem Leads.not_blocked {k : Nat} {d : Location} {p : Path} {error : Errno}
    (h : Leads t n loc p k d) : ¬Blocked t n loc p error := by
  rintro ⟨hend, -⟩
  rw [h.found] at hend
  cases hend

/-! ## Whole trees -/

/-- The entries of a tree hang together: each lies in a directory, and relative paths start in
one. -/
structure WellFormed (t : Tree) : Prop where
  here : t.node? t.here = some .dir
  above : ∀ {name : String} {loc : Location}, t.node? (name :: loc) ≠ none →
    t.node? loc = some .dir

theorem mem_entries {loc : Location} {node : Node} (h : t.node? loc = some node) (hloc : loc ≠ []) :
    (loc, node) ∈ t.entries := by
  rw [node?, if_neg hloc] at h
  exact mem_of_lookup h

theorem WellFormed.of_entries (hhere : t.node? t.here = some .dir)
    (h : ∀ entry ∈ t.entries, t.node? entry.1.tail = some .dir) : t.WellFormed where
  here := hhere
  above := by
    intro name loc hsome
    obtain ⟨node, hnode⟩ := Option.ne_none_iff_exists'.1 hsome
    exact h _ (mem_entries hnode (List.cons_ne_nil _ _))

theorem WellFormed.tail (h : t.WellFormed) {d : Location} (hd : t.node? d = some .dir) :
    t.node? d.tail = some .dir := by
  cases d with
  | nil => exact hd
  | cons name loc =>
    exact h.above (show t.node? (name :: loc) ≠ none by rw [hd]; nofun)

theorem Leads.node?_eq_dir {k : Nat} {d : Location} {p : Path} (h : Leads t n loc p k d)
    (hwell : t.WellFormed) (hloc : t.node? loc = some .dir) : t.node? d = some .dir := by
  induction h with
  | nil => exact hloc
  | blank _ _ ih => exact ih hloc
  | up _ ih => exact ih (hwell.tail hloc)
  | down _ _ hnode _ ih => exact ih hnode
  | @link _ _ loc _ _ _ target _ _ _ _ ih =>
    refine ih ?_
    rw [start]
    split
    · exact node?_nil t
    · exact hloc

end Tree

end ChunkedUpload.Files
