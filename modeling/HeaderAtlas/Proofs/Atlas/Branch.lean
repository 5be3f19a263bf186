import HeaderAtlas.Proofs.Atlas.Identity
import Mathlib.Order.Bounds.Basic
/-!
# What a path adds

A path that is asked for below a node leads through nodes as far as its names are there. From the first name that is
missing on everything is new, since a new node has no children: the new nodes are a branch, each of them the only child
of the one before (`Atlas.Branch`). So the number of new nodes is that of the names behind the longest part of the path
that can be followed, and all other look-ups go on as before (`addPathFrom_completes`).

Look-ups compare the bytes of names. What is found after a path was asked for is therefore first said up to these bytes,
for any names that have them, and then exactly for names that are decoded.
-/

set_option autoImplicit false

namespace HeaderAtlas

namespace Text

/-- Decoded names are the same if their bytes are. -/
theorem Decoded.eq_of_map_key_eq {xs ys : List Text} (hx : ∀ t ∈ xs, t.Decoded) (hy : ∀ t ∈ ys, t.Decoded)
    (h : xs.map key = ys.map key) : xs = ys := by
  have hback : ∀ {ts : List Text}, (∀ t ∈ ts, t.Decoded) → (ts.map key).map Bytes.toText = ts := by
    intro ts hts
    rw [List.map_map]
    exact (List.map_congr_left fun t ht => (hts t ht).toText_key).trans (List.map_id ts)
  rw [← hback hx, h, hback hy]

end Text

namespace Atlas

variable {a b c : Atlas} {i j k p x : Nat} {name : Text} {names more fresh way : List Text} {m n : Node}

/-! ## What names find -/

/-- A child is found if it is listed with the bytes of the name. -/
theorem findChild_eq_some_iff (ha : a.WellFormed) : a.findChild i name = .ok (some k) ↔
    name.encode = .ok name.key ∧ ∃ m, a.node? i = some m ∧ (name.key, k) ∈ m.children := by
  unfold findChild
  cases hkey : name.encode with
  | error e => simp
  | ok key =>
    obtain rfl := key_eq_of_encode hkey
    simp only [Except.ok.injEq, true_and, Option.bind_eq_some_iff]
    exact exists_congr fun m => and_congr_right fun hm => Node.child?_eq_some_iff (ha.sorted hm)

/-- A node that is found below another one has the names of that one and those that were followed, up to bytes. -/
theorem keys_of_findNames (ha : a.WellFormed) (hi : i < a.size) (h : a.findNames i names = .ok (some k)) :
    k < a.size ∧ (a.namesTo k).map Text.key = (a.namesTo i ++ names).map Text.key := by
  induction names generalizing i with
  | nil =>
    obtain rfl := Option.some.inj (Except.ok.inj h)
    exact ⟨hi, by rw [List.append_nil]⟩
  | cons name rest ih =>
    rw [findNames] at h
    split at h
    · simp at h
    · simp at h
    · next c hc =>
      obtain ⟨_, m, hm, hmem⟩ := (findChild_eq_some_iff ha).1 hc
      obtain ⟨n, hn, hp, hname⟩ := ha.child hm hmem
      obtain ⟨hk, hkeys⟩ := ih (node?_lt hn) h
      refine ⟨hk, ?_⟩
      rw [hkeys, (ha.namesTo_child hn hp).2]
      simp [hname]

/-- Names with the same bytes find the same. -/
theorem findNames_congr (h : names.map Text.key = more.map Text.key)
    (hnames : ∀ name ∈ names, name.encode = .ok name.key)
    (hmore : ∀ name ∈ more, name.encode = .ok name.key) : a.findNames i names = a.findNames i more := by
  induction names generalizing more i with
  | nil => rw [List.map_eq_nil_iff.1 h.symm]
  | cons name rest ih =>
    cases more with
    | nil => simp at h
    | cons other more =>
      obtain ⟨hkey, hrest⟩ := List.cons.inj h
      have hchild : a.findChild i name = a.findChild i other := by
        rw [findChild, findChild, hnames name List.mem_cons_self, hmore other List.mem_cons_self, hkey]
      have hlater := fun c => @ih c more hrest (fun t ht => hnames t (List.mem_cons_of_mem _ ht))
        fun t ht => hmore t (List.mem_cons_of_mem _ ht)
      simp only [findNames, hchild, hlater]

/-- The names on the way to a node have bytes. -/
theorem encode_of_mem_namesTo (ha : a.WellFormed) (hi : i < a.size) (h : name ∈ a.namesTo i) :
    name.encode = .ok name.key := by
  obtain ⟨j, n, hn, hj, rfl⟩ := exists_node_of_mem_namesTo ha hi h
  exact (ha.named hn hj).2

/-- **What is found from the root** is the node whose names have these bytes. -/
theorem findNames_root_iff (ha : a.WellFormed) (hway : ∀ name ∈ way, name.encode = .ok name.key) :
    a.findNames root way = .ok (some x) ↔ x < a.size ∧ (a.namesTo x).map Text.key = way.map Text.key := by
  constructor
  · intro h
    have hkeys := keys_of_findNames ha ha.root_lt h
    rwa [ha.namesTo_root, List.nil_append] at hkeys
  · rintro ⟨hx, hkeys⟩
    rw [← findNames_congr hkeys (fun t ht => encode_of_mem_namesTo ha hx ht) hway, findNames_namesTo ha hx]

/-- A child that is found is found in every atlas that the atlas grows into. -/
theorem Grows.findChild_eq (h : Grows a b) (ha : a.WellFormed) (hchild : a.findChild i name = .ok (some k)) :
    b.findChild i name = .ok (some k) := by
  obtain ⟨hkey, m, hm, hmem⟩ := (findChild_eq_some_iff ha).1 hchild
  obtain ⟨n, hn, _, _, hchildren, _⟩ := h.keeps hm
  exact (findChild_eq_some_iff h.wellFormed).2 ⟨hkey, n, hn, hchildren _ hmem⟩

theorem Grows.findNames_eq (h : Grows a b) (ha : a.WellFormed) (hfind : a.findNames i names = .ok (some k)) :
    b.findNames i names = .ok (some k) := by
  induction names generalizing i with
  | nil => exact hfind
  | cons name rest ih =>
    rw [findNames] at hfind
    split at hfind
    · simp at hfind
    · simp at hfind
    · next c hc =>
      rw [findNames, h.findChild_eq ha hc]
      exact ih hfind

/-- Names that were asked for find the node that was given. -/
theorem findNames_of_addNames (ha : a.WellFormed) (hi : i < a.size) (h : a.addNames i names = (b, .ok k)) :
    b.findNames i names = .ok (some k) := by
  induction names generalizing a i with
  | nil =>
    obtain ⟨rfl, hk⟩ := Prod.mk.inj h
    rw [findNames, Except.ok.inj hk]
  | cons name rest ih =>
    rw [addNames] at h
    cases hmade : a.addChild i name with
    | error e => simp [hmade] at h
    | ok made =>
      obtain ⟨d, l⟩ := made
      rw [hmade] at h
      dsimp only at h
      obtain ⟨hd, _, hl⟩ := wellFormed_addChild ha hi hmade
      obtain ⟨_, hkey, _⟩ := addChild_cases ha hmade
      obtain ⟨m, hm, hmem⟩ := listed_addChild ha hi hmade
      have hchild : d.findChild i name = .ok (some l) := (findChild_eq_some_iff hd).2 ⟨hkey, m, hm, hmem⟩
      have hgrows := (grows_addNames rest hd hl).1
      rw [h] at hgrows
      rw [findNames, hgrows.findChild_eq hd hchild]
      exact ih hd hl h

/-! ## New nodes in a row -/

/-- The second atlas is the first with a branch of new nodes: the first of them is below node `p`, each other one is
below the one before, and they have the names `fresh`. They have no edges, and old nodes keep theirs. -/
structure Branch (a b : Atlas) (p : Nat) (fresh : List Text) : Prop where
  grows : Grows a b
  size : b.size = a.size + fresh.length
  old : ∀ {i m}, a.node? i = some m → ∃ n, b.node? i = some n ∧ n.name = m.name ∧ n.parent = m.parent ∧
    n.dependencies = m.dependencies ∧ n.dependents = m.dependents
  new : ∀ {d name}, fresh[d]? = some name → ∃ n, b.node? (a.size + d) = some n ∧ n.name = name ∧
    n.parent = some (if d = 0 then p else a.size + (d - 1)) ∧ n.dependencies = [] ∧ n.dependents = []

namespace Branch

theorem nil (ha : a.WellFormed) (p : Nat) : Branch a a p [] :=
  ⟨Grows.refl ha, rfl, fun h => ⟨_, h, rfl, rfl, rfl, rfl⟩, fun h => by simp at h⟩

/-- A new child begins a branch, which goes on below that child. -/
theorem cons (hi : i < a.size) (hgrows : Grows a (a.append i name name.key))
    (h : Branch (a.append i name name.key) b a.size fresh) : Branch a b i (name :: fresh) := by
  refine ⟨hgrows.trans h.grows, ?_, fun hm => ?_, fun {d t} hd => ?_⟩
  · rw [h.size, size_append, List.length_cons]
    omega
  · obtain ⟨n, hn, hname, hparent, hdeps, hrdeps⟩ := h.old (node?_append_old hi hm)
    exact ⟨n, hn, hname, hparent, hdeps, hrdeps⟩
  · cases d with
    | zero =>
      obtain rfl : name = t := by simpa using hd
      obtain ⟨n, hn, hname, hparent, hdeps, hrdeps⟩ := h.old (node?_append_new hi)
      exact ⟨n, hn, hname, hparent, hdeps, hrdeps⟩
    | succ d =>
      obtain ⟨n, hn, hname, hparent, hdeps, hrdeps⟩ := h.new (show fresh[d]? = some t by simpa using hd)
      rw [size_append] at hn hparent
      refine ⟨n, by rw [← hn]; congr 1; omega, hname, ?_, hdeps, hrdeps⟩
      rw [hparent, if_neg (Nat.succ_ne_zero d)]
      congr 1
      split <;> omega

/-- The names of the new nodes go on where those of the node above end. -/
theorem namesTo_new (h : Branch a b p fresh) (ha : a.WellFormed) (hp : p < a.size) {d : Nat} (hd : d < fresh.length) :
    b.namesTo (a.size + d) = a.namesTo p ++ fresh.take (d + 1) := by
  induction d with
  | zero =>
    obtain ⟨n, hn, hname, hparent, _⟩ := h.new (List.getElem?_eq_getElem hd)
    rw [(h.grows.wellFormed.namesTo_child hn hparent).2, if_pos rfl, h.grows.keeps.namesTo_eq ha hp, hname,
      List.take_add_one, List.getElem?_eq_getElem hd]
    rfl
  | succ d ih =>
    obtain ⟨n, hn, hname, hparent, _⟩ := h.new (List.getElem?_eq_getElem hd)
    rw [(h.grows.wellFormed.namesTo_child hn hparent).2, if_neg (Nat.succ_ne_zero d), Nat.add_sub_cancel,
      ih (by omega), hname, List.take_add_one (i := d + 1), List.getElem?_eq_getElem hd, List.append_assoc]
    rfl

/-- **The names that lead to a node** after a branch was made: those that did before, and those of the branch. -/
theorem at_iff (h : Branch a b p fresh) (ha : a.WellFormed) (hp : p < a.size) :
    b.At x way ↔ a.At x way ∨ ∃ d < fresh.length, way = a.namesTo p ++ fresh.take (d + 1) ∧ x = a.size + d := by
  constructor
  · intro hat
    by_cases hx : x < a.size
    · exact .inl (h.grows.keeps.at_old ha hx hat)
    · have hlt := hat.1
      rw [h.size] at hlt
      have hd : x - a.size < fresh.length := by omega
      have hx : x = a.size + (x - a.size) := by omega
      refine .inr ⟨x - a.size, hd, ?_, hx⟩
      rw [← h.namesTo_new ha hp hd, ← hx, hat.2]
  · rintro (hat | ⟨d, hd, rfl, rfl⟩)
    · exact h.grows.keeps.at ha hat
    · exact ⟨by rw [h.size]; omega, h.namesTo_new ha hp hd⟩

/-- The same for what is found from the root, up to bytes. -/
theorem findNames_iff (h : Branch a b p fresh) (ha : a.WellFormed) (hp : p < a.size)
    (hway : ∀ name ∈ way, name.encode = .ok name.key) :
    b.findNames root way = .ok (some x) ↔ a.findNames root way = .ok (some x) ∨
      ∃ d < fresh.length, way.map Text.key = (a.namesTo p ++ fresh.take (d + 1)).map Text.key ∧ x = a.size + d := by
  rw [findNames_root_iff h.grows.wellFormed hway, findNames_root_iff ha hway]
  constructor
  · rintro ⟨hx, hkeys⟩
    rcases (h.at_iff ha hp).1 (At.self hx) with hat | ⟨d, hd, hnames, rfl⟩
    · exact .inl ⟨hat.1, by rw [hat.2, hkeys]⟩
    · exact .inr ⟨d, hd, by rw [← hkeys, hnames], rfl⟩
  · rintro (⟨hx, hkeys⟩ | ⟨d, hd, hkeys, rfl⟩)
    · have hat := h.grows.keeps.at ha (At.self hx)
      exact ⟨hat.1, by rw [hat.2, hkeys]⟩
    · have hat := (h.at_iff ha hp).2 (.inr ⟨d, hd, rfl, rfl⟩)
      exact ⟨hat.1, by rw [hat.2, hkeys]⟩

end Branch

/-! ## Asking for names -/

/-- A child whose bytes are not listed is made. -/
theorem addChild_of_new (ha : a.WellFormed) (hname : name ≠ []) (hkey : name.encode = .ok name.key)
    (hnew : ∀ m, a.node? i = some m → ∀ y ∈ m.children, y.1 ≠ name.key) :
    a.addChild i name = .ok (a.append i name name.key, a.size) := by
  obtain ⟨b, k, hmade⟩ := exists_addChild a i hname hkey
  obtain ⟨_, _, ⟨rfl, m, hm, hmem⟩ | ⟨rfl, rfl, _⟩⟩ := addChild_cases ha hmade
  · exact absurd rfl (hnew m hm _ hmem)
  · exact hmade

/-- **Below a missing name everything is new.** The induction is on the names behind it: the node that was made for it
has no children, so the next name is missing too. -/
theorem branch_of_new (ha : a.WellFormed) (hi : i < a.size)
    (hnames : ∀ t ∈ name :: names, t ≠ [] ∧ t.encode = .ok t.key)
    (hnew : ∀ m, a.node? i = some m → ∀ y ∈ m.children, y.1 ≠ name.key) :
    ∃ b k, a.addNames i (name :: names) = (b, .ok k) ∧ Branch a b i (name :: names) := by
  induction names generalizing a i name with
  | nil =>
    obtain ⟨hname, hkey⟩ := hnames name List.mem_cons_self
    have hmade := addChild_of_new ha hname hkey hnew
    have hwf := ha.append hi hname hkey hnew
    exact ⟨_, _, by rw [addNames, hmade]; rfl, .cons hi ⟨hwf, Extends.append hi⟩ (.nil hwf _)⟩
  | cons next names ih =>
    obtain ⟨hname, hkey⟩ := hnames name List.mem_cons_self
    have hmade := addChild_of_new ha hname hkey hnew
    have hwf := ha.append hi hname hkey hnew
    obtain ⟨b, k, hrest, hbranch⟩ := @ih _ a.size next hwf (by rw [size_append]; omega)
      (fun t ht => hnames t (List.mem_cons_of_mem _ ht)) fun m hm => by
        rw [node?_append_new hi] at hm
        rw [← Option.some.inj hm]
        simp [Node.leaf]
    exact ⟨b, k, by rw [addNames, hmade]; exact hrest, .cons hi ⟨hwf, Extends.append hi⟩ hbranch⟩

/-- The first `found` of the names lead from node `i` to node `p`, and no more of them lead anywhere. -/
structure FollowedTo (a : Atlas) (i : Nat) (names : List Text) (found p : Nat) : Prop where
  le : found ≤ names.length
  finds : a.findNames i (names.take found) = .ok (some p)
  stops : ∀ d, found < d → d ≤ names.length → a.findNames i (names.take d) = .ok none

namespace FollowedTo

/-- The number of names that can be followed is the greatest one for which they lead to a node. -/
theorem isGreatest {found : Nat} (h : FollowedTo a i names found p) :
    IsGreatest {d | d ≤ names.length ∧ ∃ x, a.findNames i (names.take d) = .ok (some x)} found := by
  refine ⟨⟨h.le, p, h.finds⟩, fun d ⟨hd, x, hx⟩ => Nat.le_of_not_lt fun hlt => ?_⟩
  rw [h.stops d hlt hd] at hx
  simp at hx

/-- Where the first name is missing, none can be followed. -/
theorem missing (h : a.findChild i name = .ok none) : FollowedTo a i (name :: names) 0 i := by
  refine ⟨Nat.zero_le _, rfl, fun d hd _ => ?_⟩
  obtain ⟨d, rfl⟩ := Nat.exists_eq_succ_of_ne_zero (Nat.ne_of_gt hd)
  rw [List.take_succ_cons, findNames, h]

/-- Where the first name leads to a child, the others are followed from there. -/
theorem found {found : Nat} (h : a.findChild i name = .ok (some k)) (hrest : FollowedTo a k names found p) :
    FollowedTo a i (name :: names) (found + 1) p := by
  refine ⟨Nat.succ_le_succ hrest.le, ?_, fun d hd hlen => ?_⟩
  · rw [List.take_succ_cons, findNames, h]
    exact hrest.finds
  · obtain ⟨d, rfl⟩ := Nat.exists_eq_succ_of_ne_zero (show d ≠ 0 by omega)
    rw [List.take_succ_cons, findNames, h]
    exact hrest.stops d (by omega) (Nat.le_of_succ_le_succ hlen)

end FollowedTo

/-- **What asking for names makes** is a branch with the names that cannot be followed, below the node where following
ends. -/
theorem addNames_branch (ha : a.WellFormed) (hi : i < a.size)
    (hnames : ∀ t ∈ names, t ≠ [] ∧ t.encode = .ok t.key) :
    ∃ found p b k, a.addNames i names = (b, .ok k) ∧ FollowedTo a i names found p ∧
      Branch a b p (names.drop found) := by
  induction names generalizing i with
  | nil =>
    exact ⟨0, i, a, i, rfl, ⟨Nat.le_refl 0, rfl, fun d hd hlen => absurd hlen (Nat.not_le_of_gt hd)⟩, .nil ha i⟩
  | cons name rest ih =>
    obtain ⟨hname, hkey⟩ := hnames name List.mem_cons_self
    cases hchild : a.findChild i name with
    | error e => simp [findChild, hkey] at hchild
    | ok child =>
      cases child with
      | none =>
        -- Here following ends, and from here on everything is new.
        have hnew : ∀ m, a.node? i = some m → ∀ y ∈ m.children, y.1 ≠ name.key := by
          rintro m hm ⟨key, y⟩ hy rfl
          rw [(findChild_eq_some_iff ha).2 ⟨hkey, m, hm, hy⟩] at hchild
          simp at hchild
        obtain ⟨b, k, hmade, hbranch⟩ := branch_of_new ha hi hnames hnew
        exact ⟨0, i, b, k, hmade, .missing hchild, hbranch⟩
      | some c =>
        obtain ⟨_, m, hm, hmem⟩ := (findChild_eq_some_iff ha).1 hchild
        obtain ⟨n, hn, _⟩ := ha.child hm hmem
        obtain ⟨found, p, b, k, hmade, hfollowed, hbranch⟩ :=
          ih (node?_lt hn) fun t ht => hnames t (List.mem_cons_of_mem _ ht)
        exact ⟨found + 1, p, b, k, by rw [addNames, addChild_of_findChild hname hchild]; exact hmade,
          hfollowed.found hchild, hbranch⟩

/-! ## Asking for a path -/

/-- What becomes of an atlas when the names are asked for below node `i` and the first `found` of them are there. The
nodes for the others are numbered from the old size on. -/
structure Completes (a b : Atlas) (i : Nat) (names : List Text) (found : Nat) : Prop where
  /-- There is one new node for each name that was missing. -/
  size : b.size = a.size + (names.length - found)
  /-- Old nodes keep their names, parents and edges. -/
  old : ∀ x m, a.node? x = some m → ∃ n, b.node? x = some n ∧ n.name = m.name ∧ n.parent = m.parent ∧
    n.dependencies = m.dependencies ∧ n.dependents = m.dependents
  /-- New nodes have no edges. -/
  new : ∀ x, a.size ≤ x → b.dependencies x = [] ∧ b.dependents x = []
  /-- Names find what they found, and those of the node with the given names behind them find the new nodes. -/
  finds : ∀ way x, (∀ name ∈ way, name.encode = .ok name.key) →
    (b.findNames root way = .ok (some x) ↔ a.findNames root way = .ok (some x) ∨ ∃ d, found < d ∧ d ≤ names.length ∧
      way.map Text.key = (a.namesTo i ++ names.take d).map Text.key ∧ x = a.size + (d - found - 1))
  /-- If all names are decoded, the same nodes have the same names as before, and the new ones have those. -/
  leads : a.Decoded → (∀ name ∈ names, name.Decoded) → ∀ way x,
    (b.At x way ↔ a.At x way ∨ ∃ d, found < d ∧ d ≤ names.length ∧
      way = a.namesTo i ++ names.take d ∧ x = a.size + (d - found - 1))

theorem decoded_of_mem_namesTo (ha : a.WellFormed) (hd : a.Decoded) (hi : i < a.size) (h : name ∈ a.namesTo i) :
    name.Decoded := by
  obtain ⟨j, n, hn, _, rfl⟩ := exists_node_of_mem_namesTo ha hi h
  exact hd hn

/-- A place in a branch is a place behind what can be followed. -/
theorem exists_place_iff {found : Nat} (hfound : found ≤ names.length) {P : Nat → Nat → Prop} :
    (∃ d < (names.drop found).length, P (found + (d + 1)) (a.size + d)) ↔
      ∃ d, found < d ∧ d ≤ names.length ∧ P d (a.size + (d - found - 1)) := by
  rw [List.length_drop]
  constructor
  · rintro ⟨d, hd, hP⟩
    refine ⟨found + (d + 1), by omega, by omega, ?_⟩
    rwa [show found + (d + 1) - found - 1 = d by omega]
  · rintro ⟨d, hlt, hle, hP⟩
    refine ⟨d - found - 1, by omega, ?_⟩
    rwa [show found + (d - found - 1 + 1) = d by omega]

theorem Branch.completes {found : Nat} (h : Branch a b p (names.drop found)) (hfollowed : FollowedTo a i names found p)
    (ha : a.WellFormed) (hi : i < a.size) : Completes a b i names found := by
  obtain ⟨hp, hkeys⟩ := keys_of_findNames ha hi hfollowed.finds
  -- The names of the node where following ends are, up to bytes, those of `i` with the followed names behind them.
  have hwhole : ∀ d, (a.namesTo p ++ (names.drop found).take d).map Text.key =
      (a.namesTo i ++ names.take (found + d)).map Text.key := by
    intro d
    rw [List.map_append, hkeys, ← List.map_append, List.take_add, List.append_assoc]
  refine ⟨?_, fun x m hm => h.old hm, fun x hx => ?_, fun way x hway => ?_, fun hd hnames way x => ?_⟩
  · rw [h.size, List.length_drop]
  · unfold dependencies dependents edges
    cases hn : b.node? x with
    | none => exact ⟨rfl, rfl⟩
    | some n =>
      have hlt := node?_lt hn
      rw [h.size] at hlt
      obtain ⟨n', hn', _, _, hdeps, hrdeps⟩ := h.new (List.getElem?_eq_getElem (show x - a.size < _ by omega))
      rw [Nat.add_sub_cancel' hx, hn] at hn'
      obtain rfl := Option.some.inj hn'
      exact ⟨hdeps, hrdeps⟩
  · rw [h.findNames_iff ha hp hway]
    simp only [hwhole]
    exact or_congr_right (exists_place_iff (P := fun d y =>
      way.map Text.key = (a.namesTo i ++ names.take d).map Text.key ∧ x = y) hfollowed.le)
  · -- Where all are decoded, the bytes say all about the names.
    have hexact : ∀ d, a.namesTo p ++ (names.drop found).take d = a.namesTo i ++ names.take (found + d) := by
      intro d
      refine Text.Decoded.eq_of_map_key_eq ?_ ?_ (hwhole d)
      · intro t ht
        rcases List.mem_append.1 ht with ht | ht
        · exact decoded_of_mem_namesTo ha hd hp ht
        · exact hnames t (List.mem_of_mem_drop (List.mem_of_mem_take ht))
      · intro t ht
        rcases List.mem_append.1 ht with ht | ht
        · exact decoded_of_mem_namesTo ha hd hi ht
        · exact hnames t (List.mem_of_mem_take ht)
    rw [h.at_iff ha hp]
    simp only [hexact]
    exact or_congr_right (exists_place_iff (P := fun d y => way = a.namesTo i ++ names.take d ∧ x = y) hfollowed.le)

/-- **A path adds what is missing and nothing else.** Take any node of an atlas with a history, and a path of names
that have bytes. The path is granted below the node. Let `found` be the length of the longest part of the path, from its
beginning on, that leads to a node. Then there are as many new nodes as names behind that part, old nodes keep names,
parents and edges, and new ones have no edges. Following the path leads to the node that was given, and from the root
the same is found as before, and the new nodes besides. -/
theorem addPathFrom_completes (h : Built a) (hi : i < a.size) (sep : CodePoint) (path : Text)
    (hpath : Segments.split sep path ≠ [])
    (hbytes : ∀ name ∈ Segments.split sep path, name.encode = .ok name.key) :
    ∃ found b k,
      IsGreatest {d | d ≤ (Segments.split sep path).length ∧
        ∃ x, a.findNames i ((Segments.split sep path).take d) = .ok (some x)} found ∧
      a.addPathFrom (.own i) path [sep] = (b, .ok k) ∧ b.navigate (.own i) path [sep] = .ok (some k) ∧
      Completes a b i (Segments.split sep path) found := by
  have ha := h.wellFormed
  obtain ⟨found, p, b, k, hmade, hfollowed, hbranch⟩ :=
    addNames_branch ha hi fun name hname => ⟨(Segments.mem_split hname).1, hbytes name hname⟩
  refine ⟨found, b, k, hfollowed.isGreatest, ?_, ?_, hbranch.completes hfollowed ha hi⟩
  · rw [addPathFrom, wayFrom, pathNames_split sep hpath]
    exact hmade
  · rw [navigate, wayFrom, pathNames_split sep hpath]
    exact findNames_of_addNames ha hi hmade

/-- Of three names below the node `a`, the first is there. The two others get the next numbers, although one of them is
that of an old node elsewhere. -/
theorem addPathFrom_completes_nested :
    ∃ b k, namedAtlas.addPathFrom (.own 1) "b//d/a" Path.root = (b, .ok k) ∧
      b.navigate (.own 1) "b//d/a" Path.root = .ok (some k) ∧
      Completes namedAtlas b 1 ["b", "d", "a"] 1 ∧ b.size = 10 := by
  have hbuilt : Built namedAtlas := Built.empty.applyAll (by decide +kernel)
  have hsplit : Segments.split Path.slash "b//d/a" = (["b", "d", "a"] : List Text) := by decide +kernel
  obtain ⟨found, b, k, hgreatest, hmade, hfind, hcompletes⟩ := addPathFrom_completes hbuilt
    (show 1 < namedAtlas.size by decide +kernel) Path.slash "b//d/a" (by decide +kernel) (by decide +kernel)
  rw [hsplit] at hgreatest hcompletes
  obtain rfl : found = 1 := hgreatest.unique (FollowedTo.isGreatest (p := 2)
    (.found (by decide +kernel) (.missing (by decide +kernel))))
  have hsize : namedAtlas.size = 8 := by decide +kernel
  exact ⟨b, k, hmade, hfind, hcompletes, by rw [hcompletes.size, hsize]; rfl⟩

end Atlas

end HeaderAtlas
