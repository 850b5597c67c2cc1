import ChunkedUpload.Proofs.Files.Growth

/-!
# A file that is written and moved

A file is written at the entry behind all links, or under a free name there (`Opens`,
`writeFile_eq_ok`). If the path that was written to is then moved over another one in the same
directory, a file that is found behind the other path is the one that was written
(`content_of_moved`). This is so even if the path that was written to is a link: on its new place it
leads to the same file, or nowhere.
-/

namespace ChunkedUpload.Files.Tree

variable {t t' t'' : Tree} {p q pre trail above rest target : Path} {name : String}
  {loc l l' d : Location} {n m k : Nat} {bytes content : Bytes} {node : Node}

/-- Behind all links, `p` leads to a file or to a free name. -/
def Opens (t : Tree) (n : Nat) (loc : Location) (p : Path) (l : Location) : Prop :=
  t.locateFrom true n loc p = .ok (.vacant l) ∨
    ∃ content, t.locateFrom true n loc p = .ok (.found l (.file content))

theorem Opens.node? (h : Opens t n loc p l) :
    t.node? l = none ∨ ∃ content, t.node? l = some (.file content) := by
  rcases h with h | ⟨content, h⟩
  · exact .inl (shows_of_locateFrom h)
  · exact .inr ⟨content, node?_of_found h⟩

theorem Opens.location_ne_nil (h : Opens t n loc p l) : l ≠ [] := by
  rintro rfl
  rcases h.node? with hnone | ⟨_, hfile⟩
  · cases hnone
  · cases hfile

theorem Opens.ne_nil (h : Opens t n loc p l) : p ≠ [] := by
  rintro rfl
  rcases h with h | ⟨content, h⟩ <;> rw [locateFrom_nil] at h <;> cases h

theorem writeFile_eq_ok : t.writeFile p content = .ok t' ↔ checkText p = .ok () ∧
    ∃ l, Opens t linksMax (start t.here p) p l ∧ t' = t.insert l (.file content) := by
  unfold writeFile locate
  cases htext : checkText p with
  | error error => simp [bind, Except.bind]
  | ok =>
    simp only [bind, Except.bind, true_and]
    constructor
    · intro h
      rcases hspot : t.locateFrom true linksMax (start t.here p) p with
        _ | ⟨l, _ | old | target⟩ | l <;> rw [hspot] at h
      · cases h
      · cases h
      · cases h
        exact ⟨l, .inr ⟨old, hspot⟩, rfl⟩
      · exact absurd (shows_of_locateFrom hspot).2 Bool.false_ne_true.symm
      · cases h
        exact ⟨l, .inl hspot, rfl⟩
    · rintro ⟨l, hspot | ⟨old, hspot⟩, rfl⟩ <;> rw [hspot] <;> rfl

/-- One name further. -/
theorem Opens.of_name {piece : String} (h : Opens t n loc (piece :: rest) l)
    (hname : Path.IsName piece) : piece.utf8ByteSize ≤ nameMax ∧
      ((t.node? (piece :: loc) = some .dir ∧ Opens t n (piece :: loc) rest l) ∨
        (∃ m target, n = m + 1 ∧ t.node? (piece :: loc) = some (.link target) ∧
          Opens t m (start loc target) (target ++ rest) l) ∨
        rest = [] ∧ l = piece :: loc) := by
  rcases h with h | ⟨content, h⟩ <;> obtain ⟨hfits, hpasses⟩ := passes_of_locateFrom hname h
  · refine ⟨hfits, ?_⟩
    cases hpasses with
    | vacant _ hrest => exact .inr (.inr ⟨hrest, rfl⟩)
    | dir hnode hon => exact .inl ⟨hnode, .inl hon⟩
    | link hn _ hnode hon => exact .inr (.inl ⟨_, _, hn, hnode, .inl hon⟩)
  · refine ⟨hfits, ?_⟩
    cases hpasses with
    | file _ hrest => exact .inr (.inr ⟨hrest, rfl⟩)
    | dir hnode hon => exact .inl ⟨hnode, .inr ⟨content, hon⟩⟩
    | link hn _ hnode hon => exact .inr (.inl ⟨_, _, hn, hnode, .inr ⟨content, hon⟩⟩)

section

variable {piece : String} (h : Opens t n loc (piece :: rest) l) (hname : Path.IsName piece)
  (hl : piece :: loc ≠ l)

include h hname hl

theorem Opens.of_dir (hnode : t.node? (piece :: loc) = some .dir) :
    Opens t n (piece :: loc) rest l := by
  rcases (h.of_name hname).2 with ⟨-, hon⟩ | ⟨_, _, -, hother, -⟩ | ⟨-, hhere⟩
  · exact hon
  · cases hnode.symm.trans hother
  · exact absurd hhere.symm hl

theorem Opens.of_link (hnode : t.node? (piece :: loc) = some (.link target)) :
    ∃ m, Opens t m (start loc target) (target ++ rest) l := by
  rcases (h.of_name hname).2 with ⟨hother, -⟩ | ⟨m, _, -, hlink, hon⟩ | ⟨-, hhere⟩
  · cases hnode.symm.trans hother
  · cases hnode.symm.trans hlink
    exact ⟨m, hon⟩
  · exact absurd hhere.symm hl

theorem Opens.node?_ne_file : t.node? (piece :: loc) ≠ some (.file content) := by
  intro hnode
  rcases (h.of_name hname).2 with ⟨hother, -⟩ | ⟨_, _, -, hother, -⟩ | ⟨-, hhere⟩
  · cases hnode.symm.trans hother
  · cases hnode.symm.trans hother
  · exact absurd hhere.symm hl

end

namespace Leads

variable {piece : String}

theorem of_blank (h : Leads t n loc (piece :: rest) k d) (hblank : Path.isBlank piece = true) :
    Leads t n loc rest k d := by
  cases h with
  | blank _ h => exact h
  | up => cases hblank
  | down hname | link hname =>
    rw [hname.1] at hblank
    cases hblank

theorem of_up (h : Leads t n loc (".." :: rest) k d) : Leads t n loc.tail rest k d := by
  cases h with
  | blank hblank => cases hblank
  | up h => exact h
  | down hname | link hname => exact absurd rfl hname.2

theorem of_name (h : Leads t n loc (piece :: rest) k d) (hname : Path.IsName piece) :
    piece.utf8ByteSize ≤ nameMax ∧
      ((t.node? (piece :: loc) = some .dir ∧ Leads t n (piece :: loc) rest k d) ∨
        ∃ m target, n = m + 1 ∧ t.node? (piece :: loc) = some (.link target) ∧
          Leads t m (start loc target) (target ++ rest) k d) := by
  cases h with
  | blank hblank =>
    rw [hname.1] at hblank
    cases hblank
  | up => exact absurd rfl hname.2
  | down _ hfits hnode h => exact ⟨hfits, .inl ⟨hnode, h⟩⟩
  | link _ hfits hnode h => exact ⟨hfits, .inr ⟨_, _, rfl, hnode, h⟩⟩

theorem of_dir (h : Leads t n loc (piece :: rest) k d) (hname : Path.IsName piece)
    (hnode : t.node? (piece :: loc) = some .dir) : Leads t n (piece :: loc) rest k d := by
  rcases (h.of_name hname).2 with ⟨-, hon⟩ | ⟨_, _, -, hother, -⟩
  · exact hon
  · cases hnode.symm.trans hother

theorem of_link (h : Leads t n loc (piece :: rest) k d) (hname : Path.IsName piece)
    (hnode : t.node? (piece :: loc) = some (.link target)) :
    ∃ m, Leads t m (start loc target) (target ++ rest) k d := by
  rcases (h.of_name hname).2 with ⟨hother, -⟩ | ⟨m, _, -, hlink, hon⟩
  · cases hnode.symm.trans hother
  · cases hnode.symm.trans hlink
    exact ⟨m, hon⟩

theorem node?_ne_file (h : Leads t n loc (piece :: rest) k d) (hname : Path.IsName piece) :
    t.node? (piece :: loc) ≠ some (.file content) := by
  intro hnode
  rcases (h.of_name hname).2 with ⟨hother, -⟩ | ⟨_, _, -, hother, -⟩ <;>
    cases hnode.symm.trans hother

end Leads

/-! ## A link that is moved -/

/-- The tree after the file `l` was written behind a link at `source` and the link was moved to
`dest`. -/
structure LinkMoved (t : Tree) (l : Location) (bytes : Bytes) (source dest : Location)
    (target : Path) (t' : Tree) : Prop where
  link : t'.node? dest = some (.link target)
  gone : source ≠ dest → t'.node? source = none
  file : l ≠ source → l ≠ dest → t'.node? l = some (.file bytes)
  others : ∀ a, a ≠ source → a ≠ dest → a ≠ l → t'.node? a = t.node? a

namespace LinkMoved

variable {source a : Location}

/-- The file is written, and the link is moved. -/
theorem intro (htop : l ≠ []) (hsource : source ≠ []) :
    LinkMoved t l bytes source (name :: d) target
      (((t.insert l (.file bytes)).erase source).insert (name :: d) (.link target)) := by
  refine ⟨?_, fun hne => ?_, fun hs hd => ?_, fun a hs hd ha => ?_⟩
  · rw [node?_insert, if_pos ⟨List.cons_ne_nil _ _, rfl⟩]
  · rw [node?_insert, if_neg fun h => hne h.2, node?_erase, if_pos ⟨hsource, rfl⟩]
  · rw [node?_insert, if_neg fun h => hd h.2, node?_erase, if_neg fun h => hs h.2, node?_insert,
      if_pos ⟨htop, rfl⟩]
  · rw [node?_insert, if_neg fun h => hd h.2, node?_erase, if_neg fun h => hs h.2, node?_insert,
      if_neg fun h => ha h.2]

/-- What there is after the move. -/
theorem of_some (h : LinkMoved t l bytes source (name :: d) target t')
    (hnode : t'.node? a = some node) :
    (a = name :: d ∧ node = .link target) ∨ (a = l ∧ node = .file bytes) ∨
      a ≠ l ∧ t.node? a = some node := by
  by_cases hdest : a = name :: d
  · rw [hdest, h.link] at hnode
    exact .inl ⟨hdest, (Option.some.inj hnode).symm⟩
  by_cases hsource : a = source
  · rw [hsource, h.gone (hsource ▸ hdest)] at hnode
    cases hnode
  by_cases hl : a = l
  · rw [hl, h.file (hl ▸ hsource) (hl ▸ hdest)] at hnode
    exact .inr (.inl ⟨hl, (Option.some.inj hnode).symm⟩)
  · exact .inr (.inr ⟨hl, h.others a hsource hdest hl ▸ hnode⟩)

theorem of_dir (h : LinkMoved t l bytes source (name :: d) target t')
    (hnode : t'.node? a = some .dir) : a ≠ l ∧ t.node? a = some .dir := by
  rcases h.of_some hnode with ⟨-, heq⟩ | ⟨-, heq⟩ | hold
  · cases heq
  · cases heq
  · exact hold

theorem of_link {behind : Path} (h : LinkMoved t l bytes source (name :: d) target t')
    (hnode : t'.node? a = some (.link behind)) :
    (a = name :: d ∧ behind = target) ∨ a ≠ l ∧ t.node? a = some (.link behind) := by
  rcases h.of_some hnode with ⟨hdest, heq⟩ | ⟨-, heq⟩ | hold
  · exact .inl ⟨hdest, Node.link.inj heq⟩
  · cases heq
  · exact .inr hold

theorem of_file (h : LinkMoved t l bytes source (name :: d) target t')
    (hnode : t'.node? a = some (.file content)) :
    content = bytes ∨ a ≠ l ∧ t.node? a = some (.file content) := by
  rcases h.of_some hnode with ⟨-, heq⟩ | ⟨-, heq⟩ | hold
  · cases heq
  · exact .inl (Node.file.inj heq)
  · exact .inr hold

/-- A walk that came to the file before comes to it, or nowhere; and nothing is behind a file. -/
theorem found_of_opens (h : LinkMoved t l bytes source (name :: d) target t')
    (hbehind : Opens t k (start d target) target l) (n : Nat) (loc : Location) (p : Path) :
    ∀ {q rest : Path} {m : Nat}, p = q ++ rest → Opens t m loc q l →
      t'.locateFrom true n loc p = .ok (.found l' node) → rest = [] ∧ node = .file bytes := by
  induction n, loc, p using walk_induction with
  | nil n loc =>
    intro q rest m hp hopens _
    exact absurd (List.append_eq_nil_iff.1 hp.symm).1 hopens.ne_nil
  | blank n loc piece more hblank ih =>
    intro q rest m hp hopens hfound
    rw [locateFrom_blank hblank] at hfound
    obtain ⟨first, q, rfl⟩ := List.exists_cons_of_ne_nil hopens.ne_nil
    obtain ⟨rfl, rfl⟩ := List.cons.inj hp
    unfold Opens at hopens
    rw [locateFrom_blank hblank] at hopens
    exact ih rfl hopens hfound
  | up n loc more ih =>
    intro q rest m hp hopens hfound
    rw [locateFrom_up] at hfound
    obtain ⟨first, q, rfl⟩ := List.exists_cons_of_ne_nil hopens.ne_nil
    obtain ⟨rfl, rfl⟩ := List.cons.inj hp
    unfold Opens at hopens
    rw [locateFrom_up] at hopens
    exact ih rfl hopens hfound
  | name n loc piece more hname hdown hlink =>
    intro q rest m hp hopens hfound
    obtain ⟨first, q, rfl⟩ := List.exists_cons_of_ne_nil hopens.ne_nil
    obtain ⟨rfl, rfl⟩ := List.cons.inj hp
    obtain ⟨-, hpasses⟩ := passes_of_locateFrom hname hfound
    cases hpasses with
    | dir hnode hon =>
      obtain ⟨hl, hold⟩ := h.of_dir hnode
      exact hdown rfl (hopens.of_dir hname hl hold) hon
    | link hn _ hnode hon =>
      rcases h.of_link hnode with ⟨hdest, rfl⟩ | ⟨hl, hold⟩
      · -- from here on the walk is the one behind the link
        obtain ⟨rfl, rfl⟩ := List.cons.inj hdest
        obtain ⟨hrest, hnode⟩ := hlink _ _ hn rfl hbehind hon
        exact ⟨(List.append_eq_nil_iff.1 hrest).2, hnode⟩
      · obtain ⟨_, hopens⟩ := hopens.of_link hname hl hold
        exact hlink _ _ hn (List.append_assoc _ q rest).symm hopens hon
    | file hnode hnil =>
      rcases h.of_file hnode with rfl | ⟨hl, hold⟩
      · exact ⟨(List.append_eq_nil_iff.1 hnil).2, rfl⟩
      · exact absurd hold (hopens.node?_ne_file hname hl)
    | last _ _ hfollow => cases hfollow

/-- Behind the link on its new place there is the file, or nothing. -/
theorem found_of_leads (h : LinkMoved t l bytes source (name :: d) target t')
    (hbehind : Opens t k (start d target) target l) (hlast : Path.IsName name) (n : Nat)
    (loc : Location) (p : Path) :
    ∀ {q : Path} {m j : Nat}, p = q ++ [name] → Leads t m loc q j d →
      t'.locateFrom true n loc p = .ok (.found l' node) → node = .file bytes := by
  induction n, loc, p using walk_induction with
  | nil n loc =>
    intro q m j hp
    simp at hp
  | blank n loc piece more hblank ih =>
    intro q m j hp hleads hfound
    rw [locateFrom_blank hblank] at hfound
    cases q with
    | nil =>
      obtain ⟨rfl, -⟩ := List.cons.inj hp
      rw [hlast.1] at hblank
      cases hblank
    | cons first q =>
      obtain ⟨rfl, rfl⟩ := List.cons.inj hp
      exact ih rfl (hleads.of_blank hblank) hfound
  | up n loc more ih =>
    intro q m j hp hleads hfound
    rw [locateFrom_up] at hfound
    cases q with
    | nil =>
      obtain ⟨hup, -⟩ := List.cons.inj hp
      exact absurd hup.symm hlast.2
    | cons first q =>
      obtain ⟨rfl, rfl⟩ := List.cons.inj hp
      exact ih rfl hleads.of_up hfound
  | name n loc piece more hname hdown hlink =>
    intro q m j hp hleads hfound
    obtain ⟨-, hpasses⟩ := passes_of_locateFrom hname hfound
    cases q with
    | nil =>
      obtain rfl : piece = name := (List.cons.inj hp).1
      cases hleads
      cases hpasses with
      | dir hnode | file hnode => cases h.link.symm.trans hnode
      | link hn _ hnode hon =>
        cases h.link.symm.trans hnode
        exact (h.found_of_opens hbehind _ _ _ rfl hbehind hon).2
      | last _ _ hfollow => cases hfollow
    | cons first q =>
      obtain ⟨rfl, rfl⟩ := List.cons.inj hp
      cases hpasses with
      | dir hnode hon => exact hdown rfl (hleads.of_dir hname (h.of_dir hnode).2) hon
      | link hn _ hnode hon =>
        rcases h.of_link hnode with ⟨hdest, rfl⟩ | ⟨-, hold⟩
        · obtain ⟨-, rfl⟩ := List.cons.inj hdest
          exact (h.found_of_opens hbehind _ _ _ rfl hbehind hon).2
        · obtain ⟨_, hleads⟩ := hleads.of_link hname hold
          exact hlink _ _ hn (List.append_assoc _ q [name]).symm hleads hon
      | file hnode =>
        rcases h.of_file hnode with rfl | ⟨-, hold⟩
        · rfl
        · exact absurd hold (hleads.node?_ne_file hname)
      | last _ _ hfollow => cases hfollow

end LinkMoved

/-! ## The whole move -/

/-- No walk to a directory goes through a file. -/
theorem Leads.of_insert_file (h : Leads (t.insert l (.file bytes)) n loc p k d) :
    Leads t n loc p k d := by
  refine h.mono fun a node ha hfile => ?_
  rw [node?_insert] at ha
  split at ha
  · cases ha
    exact absurd rfl (hfile bytes)
  · exact ha

/-- The entry written to is a file with these bytes, or a link behind which there is one. -/
theorem node?_of_writeFile (hends : q.Ends pre name []) (hup : name ≠ "..")
    (habove : q.parent? = some above) (hwrite : t.writeFile q bytes = .ok t')
    (hleads : t'.LeadsTo above d) :
    t'.node? (name :: d) = some (.file bytes) ∨
      ∃ l target k, t' = t.insert l (.file bytes) ∧ l ≠ name :: d ∧
        t.node? (name :: d) = some (.link target) ∧ Opens t k (start d target) target l := by
  obtain ⟨htext, l, hopens, rfl⟩ := writeFile_eq_ok.1 hwrite
  obtain ⟨k, hpre⟩ := (leadsTo_parent hends habove).1 hleads
  have hpre' : Leads t linksMax (start t.here q) pre k d := hpre.of_insert_file
  have hwalk : t.locateFrom true linksMax (start t.here q) (pre ++ [name]) =
      t.locateFrom true k d [name] := hpre'.locateFrom (.inr rfl)
  rw [← hends.eq] at hwalk
  have hlast : Opens t k d [name] l := by rwa [Opens, ← hwalk]
  by_cases hsame : l = name :: d
  · rw [node?_insert, if_pos ⟨List.cons_ne_nil _ _, hsame.symm⟩]
    exact .inl rfl
  · refine .inr ⟨l, ?_⟩
    rcases (hlast.of_name ⟨hends.name, hup⟩).2 with ⟨-, hnil⟩ | ⟨m, target, -, hlink, hbehind⟩ |
      ⟨-, heq⟩
    · exact absurd rfl hnil.ne_nil
    · rw [List.append_nil] at hbehind
      exact ⟨target, m, rfl, hsame, hlink, hbehind⟩
    · exact absurd heq hsame

/-- If the entry that was written to is a file, it is the one that was written. -/
theorem content_of_writeFile (hends : q.Ends pre name []) (hup : name ≠ "..")
    (habove : q.parent? = some above) (hwrite : t.writeFile q bytes = .ok t')
    (hleads : t'.LeadsTo above d) (hnode : t'.node? (name :: d) = some (.file content)) :
    content = bytes := by
  rcases node?_of_writeFile hends hup habove hwrite hleads with
    hfile | ⟨l, target, k, rfl, hl, hlink, -⟩
  · rw [hnode] at hfile
    cases hfile
    rfl
  · rw [node?_insert, if_neg fun h => hl h.2.symm, hlink] at hnode
    cases hnode

/-- Whatever is found behind a path that a file was moved to is the file. -/
theorem content_of_moved {preS preT trailT : Path} {nameS nameT : String}
    (hendsS : q.Ends preS nameS []) (hupS : nameS ≠ "..") (haboveS : q.parent? = some above)
    (hendsT : p.Ends preT nameT trailT) (hupT : nameT ≠ "..") (haboveT : p.parent? = some above)
    (hwrite : t.writeFile q bytes = .ok t') (hrename : t'.rename q p = .ok t'')
    (hentry : t''.entry true p = .ok (l', .file content)) : content = bytes := by
  obtain ⟨d, dT, node, hleadsS, hleadsT, hnode, rfl, rfl, htext, hdir, hfits⟩ :=
    rename_ok_onto hendsS haboveS hendsT haboveT hrename
  obtain rfl := hleadsS.unique hleadsT
  have hfound := locateFrom_of_entry hentry
  have hlast : Path.IsName nameT := ⟨hendsT.name, hupT⟩
  rcases node?_of_writeFile hendsS hupS haboveS hwrite hleadsS with
    hfile | ⟨l, target, k, rfl, hl, hlink, hbehind⟩
  · rw [hnode] at hfile
    cases hfile
    rcases leads_or_blocked ((t'.erase (nameS :: d)).insert (nameT :: d) (.file bytes)) linksMax
      (start t'.here p) preT with ⟨k, e, hpre⟩ | ⟨error, hblocked⟩
    · have hpre' : Leads t' linksMax (start t'.here p) preT k e := by
        refine hpre.of_insert_file.mono fun a node ha _ => ?_
        rw [node?_erase] at ha
        split at ha
        · cases ha
        · exact ha
      obtain rfl := ((leadsTo_parent hendsT haboveT).2 ⟨k, hpre'⟩).unique hleadsT
      have hwalk : Tree.locateFrom _ true linksMax (start t'.here p) (preT ++ [nameT]) =
          Tree.locateFrom _ true k e [nameT] := hpre.locateFrom (.inr rfl)
      rw [← hendsT.eq, locateFrom_file hlast hfits (by
        rw [node?_insert, if_pos ⟨List.cons_ne_nil _ _, rfl⟩]), if_pos rfl] at hwalk
      cases hfound.symm.trans hwalk
      rfl
    · have hon := hblocked.2 true [nameT] (List.cons_ne_nil _ _)
      rw [← hendsT.eq] at hon
      cases hfound.symm.trans hon
  · have hother : nameS :: d ≠ l := fun heq => hl heq.symm
    rw [node?_insert, if_neg fun h => hother h.2, hlink] at hnode
    cases hnode
    have hmoved : LinkMoved t l bytes (nameS :: d) (nameT :: d) target _ :=
      .intro hbehind.location_ne_nil (List.cons_ne_nil _ _)
    obtain ⟨j, hpre⟩ := (leadsTo_parent hendsT haboveT).1 hleadsT
    cases hmoved.found_of_leads hbehind hlast _ _ _ hendsT.eq hpre.of_insert_file hfound
    rfl

end ChunkedUpload.Files.Tree
