import HeaderAtlas.Atlas.Request
import HeaderAtlas.Proofs.Atlas.Arena
import HeaderAtlas.Proofs.Text.Utf8
import Mathlib.Data.List.Induction
/-!
# What holds in an atlas

Numbers of nodes depend on the order in which an atlas was filled. What it says does not: which names
lead from the root to a node, and between which of these nodes there are edges. A `Request` is a
statement of that kind, and `Atlas.Holds` says whether an atlas makes it true. Every operation is
described by what it makes hold (`Atlas.Adds`), and such descriptions are put together by
`Atlas.Adds.trans`; so a whole run of requests holds exactly what the requests grant, whatever their
order (`Atlas.performAll_adds`).

Names must be decoded here. Otherwise a name could find the node of another name with the same bytes,
and what holds would depend on which of the two came first.
-/

set_option autoImplicit false

namespace HeaderAtlas

/-- A path that can be followed: it has a name, and its names are decoded. Names of a path are never empty, so nothing
else can be wrong with it. -/
def Path.Leads (path : Text) : Prop := components path ≠ [] ∧ ∀ name ∈ components path, name.Decoded

theorem Path.Leads.names {path : Text} (h : Path.Leads path) :
    ∀ name ∈ components path, name ≠ [] ∧ name.Decoded :=
  fun name hname => ⟨(Segments.mem_split hname).1, h.2 name hname⟩

theorem Path.Leads.ne_nil {path : Text} (h : Path.Leads path) : path ≠ [] := by
  rintro rfl
  exact h.1 rfl

namespace Atlas

variable {a b c : Atlas} {i j k p : Nat} {name : Text} {names ns : List Text} {n m : Node}

/-! ## The names that lead to a node -/

theorem namesTo_of_root (h : a.node? i = some n) (hp : n.parent = none) : a.namesTo i = [] := by
  unfold namesTo
  simp only [h, hp]

theorem namesTo_of_parent (h : a.node? i = some n) (hp : n.parent = some p) (hlt : p < i) :
    a.namesTo i = a.namesTo p ++ [n.name] := by
  rw [namesTo]
  simp only [h, hp, if_pos hlt]

namespace WellFormed

theorem namesTo_root (ha : a.WellFormed) : a.namesTo Atlas.root = [] := by
  obtain ⟨n, hn, _, hp⟩ := ha.root
  exact namesTo_of_root hn hp

/-- The names to a node are those to its parent and its own. The number of the parent is smaller, which the recursion
of `namesTo` needs. -/
theorem namesTo_child (ha : a.WellFormed) (h : a.node? i = some n) (hp : n.parent = some p) :
    p < i ∧ a.namesTo i = a.namesTo p ++ [n.name] :=
  ⟨ha.parent_lt h hp, namesTo_of_parent h hp (ha.parent_lt h hp)⟩

end WellFormed

/-- The given names lead from the root to node `i`. This is how nodes are spoken of without their numbers. -/
def At (a : Atlas) (i : Nat) (names : List Text) : Prop := i < a.size ∧ a.namesTo i = names

namespace At

theorem root (ha : a.WellFormed) : a.At Atlas.root [] := ⟨ha.root_lt, ha.namesTo_root⟩

theorem self (h : i < a.size) : a.At i (a.namesTo i) := ⟨h, rfl⟩

theorem eq_root (ha : a.WellFormed) (h : a.At i []) : i = Atlas.root := by
  obtain ⟨hi, hnames⟩ := h
  obtain ⟨n, hn⟩ := exists_node? hi
  cases hp : n.parent with
  | none => exact ha.eq_root hn hp
  | some p =>
    rw [(ha.namesTo_child hn hp).2] at hnames
    simp at hnames

/-- The last of the names is that of the node, and the others lead to its parent. -/
theorem parent (ha : a.WellFormed) (h : a.At i (names ++ [name])) :
    ∃ n p, a.node? i = some n ∧ n.name = name ∧ n.parent = some p ∧ p < i ∧ a.At p names := by
  obtain ⟨hi, hnames⟩ := h
  obtain ⟨n, hn⟩ := exists_node? hi
  cases hp : n.parent with
  | none =>
    rw [namesTo_of_root hn hp] at hnames
    simp at hnames
  | some p =>
    obtain ⟨hlt, heq⟩ := ha.namesTo_child hn hp
    rw [heq] at hnames
    obtain ⟨h1, h2⟩ := List.append_inj' hnames rfl
    exact ⟨n, p, hn, by simpa using h2, hp, hlt, by omega, h1⟩

theorem child (ha : a.WellFormed) (h : a.At p names) (hn : a.node? i = some n)
    (hp : n.parent = some p) : a.At i (names ++ [n.name]) := by
  refine ⟨node?_lt hn, ?_⟩
  rw [(ha.namesTo_child hn hp).2, h.2]

/-- **Names lead to one node only.** Of two children of a node with one name, both are listed with the
same bytes, and no two are. -/
theorem unique (ha : a.WellFormed) (hi : a.At i names) (hj : a.At j names) : i = j := by
  induction names using List.reverseRecOn generalizing i j with
  | nil => rw [hi.eq_root ha, hj.eq_root ha]
  | append_singleton names name ih =>
    obtain ⟨n, p, hn, hname, hp, -, hat⟩ := hi.parent ha
    obtain ⟨n', p', hn', hname', hp', -, hat'⟩ := hj.parent ha
    -- The parents are one node, and it lists both with the bytes of the one name.
    obtain rfl := ih hat hat'
    obtain ⟨m, hm, hmem⟩ := ha.listed hn hp
    obtain ⟨m', hm', hmem'⟩ := ha.listed hn' hp'
    rw [hm] at hm'
    obtain rfl := Option.some.inj hm'
    rw [hname] at hmem
    rw [hname'] at hmem'
    have h := (Node.child?_eq_some_iff (ha.sorted hm)).2 hmem
    rw [(Node.child?_eq_some_iff (ha.sorted hm)).2 hmem'] at h
    exact (Option.some.inj h).symm

/-- Names on the way to a node lead to a node. -/
theorem of_append (ha : a.WellFormed) {rest : List Text} (h : a.At i (names ++ rest)) :
    ∃ j, a.At j names := by
  induction rest using List.reverseRecOn generalizing i with
  | nil => exact ⟨i, by rwa [List.append_nil] at h⟩
  | append_singleton rest name ih =>
    rw [← List.append_assoc] at h
    obtain ⟨_, p, _, _, _, _, hat⟩ := h.parent ha
    exact ih hat

end At

/-- **Names of old nodes stay.** By induction on the number of the node, since a parent comes before its children. -/
theorem Extends.namesTo_eq (h : a.Extends b) (ha : a.WellFormed) (hi : i < a.size) :
    b.namesTo i = a.namesTo i := by
  induction i using Nat.strongRecOn with
  | ind i ih =>
    obtain ⟨m, hm⟩ := exists_node? hi
    obtain ⟨n, hn, hname, hparent, _⟩ := h hm
    cases hp : m.parent with
    | none => rw [namesTo_of_root hm hp, namesTo_of_root hn (hparent.trans hp)]
    | some p =>
      obtain ⟨hlt, heq⟩ := ha.namesTo_child hm hp
      rw [heq, namesTo_of_parent hn (hparent.trans hp) hlt, ih p hlt (by omega), hname]

/-- What names lead to is not lost when an atlas grows. -/
theorem Extends.at (h : a.Extends b) (ha : a.WellFormed) (hat : a.At i names) : b.At i names :=
  ⟨h.lt_size hat.1, by rw [h.namesTo_eq ha hat.1, hat.2]⟩

theorem Extends.at_old (h : a.Extends b) (ha : a.WellFormed) (hi : i < a.size) (hat : b.At i names) :
    a.At i names := ⟨hi, by rw [← h.namesTo_eq ha hi, hat.2]⟩

/-- Every name on the way to a node is a name of a node. -/
theorem exists_node_of_mem_namesTo (ha : a.WellFormed) (hi : i < a.size) {name : Text}
    (h : name ∈ a.namesTo i) : ∃ j n, a.node? j = some n ∧ j ≠ root ∧ n.name = name := by
  induction i using Nat.strongRecOn with
  | ind i ih =>
    obtain ⟨n, hn⟩ := exists_node? hi
    cases hp : n.parent with
    | none =>
      rw [namesTo_of_root hn hp] at h
      exact absurd h (by simp)
    | some p =>
      obtain ⟨hlt, heq⟩ := ha.namesTo_child hn hp
      rw [heq, List.mem_append, List.mem_singleton] at h
      rcases h with h | rfl
      · exact ih p hlt (by omega) h
      · exact ⟨i, n, hn, by rintro rfl; exact Nat.not_lt_zero p hlt, rfl⟩

theorem namesTo_ne_nil (ha : a.WellFormed) (hi : i < a.size) (hroot : i ≠ root) : a.namesTo i ≠ [] :=
  fun h => hroot (At.eq_root ha ⟨hi, h⟩)

/-- **The names come back from the path of a node**, if they have no slashes. So a path can stand for a node in a
document. -/
theorem components_fullName (ha : a.WellFormed) (hslash : ∀ ⦃i n⦄, a.node? i = some n → Path.slash ∉ n.name)
    (hi : i < a.size) : Path.components (a.fullName i Path.root) = a.namesTo i := by
  refine Segments.split_join fun name hname => ?_
  obtain ⟨j, n, hn, hj, rfl⟩ := exists_node_of_mem_namesTo ha hi hname
  exact ⟨(ha.named hn hj).1, hslash hn⟩

/-! ## Facts -/

/-- All names are decoded. Then different names have different bytes, and a name finds its own node. -/
def Decoded (a : Atlas) : Prop := ∀ ⦃i n⦄, a.node? i = some n → n.name.Decoded

theorem decoded_empty : empty.Decoded := by
  intro i n h
  rw [(node?_empty h).2]
  exact Text.Decoded.nil

/-- Whether an atlas has what a request asks for. The same type serves for what is asked and for what is so. -/
def Holds (a : Atlas) : Request → Prop
  | .node names => ∃ i, a.At i names
  | .edge kind node other => ∃ i j, a.At i node ∧ a.At j other ∧ j ∈ a.edges kind i

/-- What becomes of an atlas that is given the facts `new` and no others: it is still an arena of decoded names,
nothing is lost, and what holds is what held before and the new facts. -/
structure Adds (a b : Atlas) (new : Request → Prop) : Prop where
  wellFormed : b.WellFormed
  decoded : b.Decoded
  keeps : a.Extends b
  holds : ∀ f, b.Holds f ↔ a.Holds f ∨ new f

namespace Adds

theorem refl (ha : a.WellFormed) (hd : a.Decoded) : Adds a a fun _ => False :=
  ⟨ha, hd, Extends.refl a, fun f => by simp⟩

/-- What is added in two steps is added together. -/
theorem trans {new new' : Request → Prop} (hab : Adds a b new) (hbc : Adds b c new') :
    Adds a c fun f => new f ∨ new' f := by
  refine ⟨hbc.wellFormed, hbc.decoded, hab.keeps.trans hbc.keeps, fun f => ?_⟩
  rw [hbc.holds, hab.holds, or_assoc]

theorem congr {new new' : Request → Prop} (h : Adds a b new) (heq : ∀ f, new f ↔ new' f) :
    Adds a b new' :=
  ⟨h.wellFormed, h.decoded, h.keeps, fun f => by rw [h.holds, heq]⟩

end Adds

/-- Only the root of an empty atlas holds. -/
theorem holds_empty (f : Request) : empty.Holds f ↔ f = .node [] := by
  have hsize : ∀ {i}, i < empty.size → i = root := fun hi => by
    have : empty.size = 1 := rfl
    rw [root]
    omega
  cases f with
  | node names =>
    simp only [Holds, Request.node.injEq]
    constructor
    · rintro ⟨i, hi, rfl⟩
      obtain rfl := hsize hi
      exact wellFormed_empty.namesTo_root
    · rintro rfl
      exact ⟨root, At.root wellFormed_empty⟩
  | edge kind node other =>
    simp only [Holds, reduceCtorEq, iff_false]
    rintro ⟨i, j, _, _, hmem⟩
    simp at hmem

/-! ## Making a child -/

/-- Where only nodes are made, the edges that hold stay the same. -/
theorem Extends.holds_edges (h : a.Extends b) (ha : a.WellFormed) {kind : EdgeKind}
    (hedges : ∀ i, b.edges kind i = a.edges kind i) (node other : List Text) :
    b.Holds (.edge kind node other) ↔ a.Holds (.edge kind node other) := by
  constructor
  · -- The ends of an edge that was there are old nodes, so their names are the old ones.
    rintro ⟨i, j, hi, hj, hmem⟩
    rw [hedges] at hmem
    obtain ⟨hi', hj'⟩ := ha.lt_size_of_mem_edges hmem
    exact ⟨i, j, h.at_old ha hi' hi, h.at_old ha hj' hj, hmem⟩
  · rintro ⟨i, j, hi, hj, hmem⟩
    exact ⟨i, j, h.at ha hi, h.at ha hj, by rw [hedges]; exact hmem⟩

/-- A new child makes its own names hold and nothing else. No other child may have its key, or one key would stand for
two nodes. -/
theorem append_adds (ha : a.WellFormed) (hd : a.Decoded) (hat : a.At i ns) (hname : name ≠ [])
    (hdec : name.Decoded) (hnew : ∀ m, a.node? i = some m → ∀ x ∈ m.children, x.1 ≠ name.key) :
    Adds a (a.append i name name.key) (fun f => f = .node (ns ++ [name])) ∧
      (a.append i name name.key).At a.size (ns ++ [name]) := by
  have hext : a.Extends (a.append i name name.key) := Extends.append hat.1
  have hwf := ha.append hat.1 hname hdec.encode_eq hnew
  have hnode : (a.append i name name.key).node? a.size = some (Node.leaf name (some i)) :=
    node?_append_new hat.1
  have hchild : (a.append i name name.key).At a.size (ns ++ [name]) :=
    At.child hwf (hext.at ha hat) hnode rfl
  refine ⟨⟨hwf, ?_, hext, ?_⟩, hchild⟩
  · intro j n h
    rcases node?_append_cases hat.1 h with ⟨rfl, rfl⟩ | ⟨m, hm, rfl⟩
    · exact hdec
    · exact (hd hm : m.name.Decoded)
  · intro f
    cases f with
    | node names =>
      simp only [Holds, Request.node.injEq]
      constructor
      · rintro ⟨j, hj⟩
        -- An old node has the names that it had, and there is one new node only.
        by_cases hlt : j < a.size
        · exact .inl ⟨j, hext.at_old ha hlt hj⟩
        · obtain rfl : j = a.size := by
            have := hj.1
            rw [size_append] at this
            omega
          exact .inr (by rw [← hj.2, hchild.2])
      · rintro (⟨j, hj⟩ | rfl)
        · exact ⟨j, hext.at ha hj⟩
        · exact ⟨a.size, hchild⟩
    | edge kind node other => simp [hext.holds_edges ha (edges_append hat.1 kind) node other]

/-- Asking for a child never fails for a name that has bytes. -/
theorem exists_addChild (a : Atlas) (i : Nat) {key : Bytes} (hname : name ≠ []) (hkey : name.encode = .ok key) :
    ∃ b k, a.addChild i name = .ok (b, k) := by
  rw [addChild, if_neg (by simpa using hname), hkey]
  dsimp only
  split
  · exact ⟨_, _, rfl⟩
  · exact ⟨_, _, rfl⟩

/-- **Asking for a child.** Afterwards its names hold, and the node that is given back is the one they lead
to. -/
theorem addChild_adds (ha : a.WellFormed) (hd : a.Decoded) (hat : a.At i ns) (hname : name ≠ [])
    (hdec : name.Decoded) :
    ∃ b k, a.addChild i name = .ok (b, k) ∧ Adds a b (fun f => f = .node (ns ++ [name])) ∧
      b.At k (ns ++ [name]) := by
  obtain ⟨b, k, hmade⟩ := exists_addChild a i hname hdec.encode_eq
  refine ⟨b, k, hmade, ?_⟩
  obtain ⟨_, _, ⟨rfl, m, hm, hmem⟩ | ⟨rfl, rfl, hnew⟩⟩ := addChild_cases ha hmade
  · -- The child that was found has the bytes of the name. That it has the name itself is where both
    -- being decoded is needed.
    obtain ⟨n, hn, hp, hkey⟩ := ha.child hm hmem
    have hchild := At.child ha hat hn hp
    rw [(hd hn).eq_of_key_eq hdec hkey] at hchild
    refine ⟨⟨ha, hd, Extends.refl b, fun f => ⟨.inl, ?_⟩⟩, hchild⟩
    rintro (h | rfl)
    · exact h
    · exact ⟨k, hchild⟩
  · exact append_adds ha hd hat hname hdec hnew

/-- **Asking for a path of names.** All the names on the way hold afterwards, by one step for each of them. -/
theorem addNames_adds (ha : a.WellFormed) (hd : a.Decoded) (hat : a.At i ns)
    (hnames : ∀ name ∈ names, name ≠ [] ∧ name.Decoded) :
    ∃ b k, a.addNames i names = (b, .ok k) ∧
      Adds a b (fun f => ∃ pre, pre ≠ [] ∧ pre <+: names ∧ f = .node (ns ++ pre)) ∧
      b.At k (ns ++ names) := by
  induction names generalizing a i ns with
  | nil =>
    refine ⟨a, i, rfl, (Adds.refl ha hd).congr ?_, by rwa [List.append_nil]⟩
    simp
  | cons name rest ih =>
    obtain ⟨hname, hdec⟩ := hnames name List.mem_cons_self
    obtain ⟨b, k, hb, hadds, hk⟩ := addChild_adds ha hd hat hname hdec
    obtain ⟨c, l, hc, hadds', hl⟩ := ih hadds.wellFormed hadds.decoded hk
      fun n hn => hnames n (List.mem_cons_of_mem _ hn)
    refine ⟨c, l, by rw [addNames, hb]; exact hc, (hadds.trans hadds').congr fun f => ?_, ?_⟩
    · constructor
      · rintro (rfl | ⟨pre, hne, hpre, rfl⟩)
        · exact ⟨[name], by simp, by simp, rfl⟩
        · exact ⟨name :: pre, by simp, by simpa using hpre, by simp⟩
      · -- The first name alone is what the child granted; anything longer goes on below the child.
        rintro ⟨pre, hne, hpre, rfl⟩
        cases pre with
        | nil => exact absurd rfl hne
        | cons x pre =>
          obtain ⟨rfl, hrest⟩ := List.cons_prefix_cons.1 hpre
          by_cases hnil : pre = []
          · exact .inl (by rw [hnil])
          · exact .inr ⟨pre, hnil, hrest, by simp⟩
    · rwa [List.append_assoc] at hl

/-- The names in a path that has one. -/
theorem pathNames_split (c : CodePoint) {path : Text} (h : Segments.split c path ≠ []) :
    pathNames path [c] = .ok (Segments.split c path) := by
  have hof : Segments.ofPath path [c] = .ok (Segments.split c path) := rfl
  rw [pathNames, hof]
  cases hsplit : Segments.split c path with
  | nil => exact absurd hsplit h
  | cons name rest => rfl

theorem pathNames_eq {path : Text} (h : Path.components path ≠ []) :
    pathNames path Path.root = .ok (Path.components path) := pathNames_split Path.slash h

/-- **Asking for a path from the root.** -/
theorem addPath_adds {path : Text} (ha : a.WellFormed) (hd : a.Decoded) (hpath : Path.Leads path) :
    ∃ b k, a.addPath root path Path.root = (b, .ok k) ∧
      Adds a b (fun f => ∃ way, way ≠ [] ∧ way <+: Path.components path ∧ f = .node way) ∧
      b.At k (Path.components path) := by
  have h := addNames_adds ha hd (At.root ha) hpath.names
  rw [addPath, pathNames_eq hpath.1]
  simpa only [List.nil_append] using h

/-! ## Drawing an edge -/

/-- Where no node is made, names lead where they led. -/
theorem Extends.at_iff (h : a.Extends b) (ha : a.WellFormed) (hsize : b.size = a.size) :
    b.At i names ↔ a.At i names :=
  ⟨fun hat => h.at_old ha (hsize ▸ hat.1) hat, fun hat => h.at ha hat⟩

/-- **Drawing an edge** makes it hold and nothing else. -/
theorem addEdge_adds (kind : EdgeKind) {node other : List Text} (ha : a.WellFormed) (hd : a.Decoded)
    (hi : a.At i node) (hj : a.At j other) :
    Adds a (a.addEdge kind i j).1 (fun f => f = .edge kind node other) := by
  have hext := Extends.addEdge a kind i j
  have hat : ∀ {k names}, (a.addEdge kind i j).1.At k names ↔ a.At k names := hext.at_iff ha size_addEdge
  refine ⟨ha.addEdge hj.1, ?_, hext, fun f => ?_⟩
  · intro k n h
    obtain ⟨m, hm, hname, _⟩ := (SameTree.addEdge a kind i j).symm.node h
    rw [← hname]
    exact hd hm
  · cases f with
    | node names => simp [Holds, hat]
    | edge kind' s t =>
      by_cases hkind : kind' = kind
      · subst hkind
        simp only [Holds, hat, mem_edges_addEdge hi.1, Request.edge.injEq, true_and]
        constructor
        · rintro ⟨k, l, hk, hl, hmem | ⟨rfl, rfl⟩⟩
          · exact .inl ⟨k, l, hk, hl, hmem⟩
          · exact .inr ⟨by rw [← hk.2, hi.2], by rw [← hl.2, hj.2]⟩
        · rintro (⟨k, l, hk, hl, hmem⟩ | ⟨rfl, rfl⟩)
          · exact ⟨k, l, hk, hl, .inl hmem⟩
          · exact ⟨i, j, hi, hj, .inr ⟨rfl, rfl⟩⟩
      · simp [Holds, hat, edges_addEdge_of_ne hkind, hkind]

end Atlas

/-! ## Requests -/

namespace Request

/-- The nodes that a request names. -/
def paths : Request → List (List Text)
  | .node names => [names]
  | .edge _ names other => [names, other]

/-- What a request makes hold: the nodes it names, those on the way to them, and its edge. -/
def Grants (r : Request) : Request → Prop
  | .node names => names ≠ [] ∧ ∃ path ∈ r.paths, names <+: path
  | .edge kind names other => r = .edge kind names other

/-- All names in a request are names of nodes, and decoded. -/
def Fits (r : Request) : Prop := ∀ path ∈ r.paths, ∀ name ∈ path, name ≠ [] ∧ name.Decoded

end Request

namespace Atlas

variable {a b c : Atlas}

theorem addBoth_adds {first second : List Text} (ha : a.WellFormed) (hd : a.Decoded)
    (h1 : ∀ name ∈ first, name ≠ [] ∧ name.Decoded)
    (h2 : ∀ name ∈ second, name ≠ [] ∧ name.Decoded) :
    ∃ b i j, a.addBoth first second = (b, .ok (i, j)) ∧
      Adds a b (fun f => ∃ names, names ≠ [] ∧ (names <+: first ∨ names <+: second) ∧
        f = .node names) ∧ b.At i first ∧ b.At j second := by
  obtain ⟨b, i, hb, hadds, hi⟩ := addNames_adds ha hd (At.root ha) h1
  obtain ⟨c, j, hc, hadds', hj⟩ :=
    addNames_adds hadds.wellFormed hadds.decoded (At.root hadds.wellFormed) h2
  simp only [List.nil_append] at hadds hadds' hi hj
  refine ⟨c, i, j, by rw [addBoth, hb]; dsimp only; rw [hc], (hadds.trans hadds').congr fun f => ?_,
    hadds'.keeps.at hadds.wellFormed hi, hj⟩
  constructor
  · rintro (⟨names, hne, hpre, rfl⟩ | ⟨names, hne, hpre, rfl⟩)
    · exact ⟨names, hne, .inl hpre, rfl⟩
    · exact ⟨names, hne, .inr hpre, rfl⟩
  · rintro ⟨names, hne, hpre | hpre, rfl⟩
    · exact .inl ⟨names, hne, hpre, rfl⟩
    · exact .inr ⟨names, hne, hpre, rfl⟩

/-- **One request.** It is never refused, and makes hold exactly what it grants. -/
theorem perform_adds {r : Request} (ha : a.WellFormed) (hd : a.Decoded) (hr : r.Fits) :
    ∃ b, a.perform r = (b, .ok ()) ∧ Adds a b r.Grants := by
  cases r with
  | node names =>
    obtain ⟨b, i, hb, hadds, _⟩ := addNames_adds ha hd (At.root ha) (hr names (by simp [Request.paths]))
    refine ⟨b, by rw [perform, hb], hadds.congr fun f => ?_⟩
    cases f <;> simp [Request.Grants, Request.paths]
  | edge kind node other =>
    obtain ⟨b, i, j, hb, hadds, hi, hj⟩ := addBoth_adds ha hd
      (hr node (by simp [Request.paths])) (hr other (by simp [Request.paths]))
    refine ⟨_, by rw [perform, hb],
      (hadds.trans (addEdge_adds kind hadds.wellFormed hadds.decoded hi hj)).congr fun f => ?_⟩
    cases f <;> simp [Request.Grants, Request.paths, eq_comm]

/-- **A run of requests** makes hold exactly what its requests grant. By induction on the run, with `perform_adds` for
each step; the order of the requests does not occur in the statement. -/
theorem performAll_adds {requests : List Request} (ha : a.WellFormed) (hd : a.Decoded)
    (hr : ∀ r ∈ requests, r.Fits) :
    ∃ b, a.performAll requests = (b, .ok ()) ∧ Adds a b fun f => ∃ r ∈ requests, r.Grants f := by
  induction requests generalizing a with
  | nil => exact ⟨a, rfl, (Adds.refl ha hd).congr fun f => by simp⟩
  | cons r rest ih =>
    obtain ⟨b, hb, hadds⟩ := perform_adds ha hd (hr r List.mem_cons_self)
    obtain ⟨c, hc, hadds'⟩ := ih hadds.wellFormed hadds.decoded
      fun q hq => hr q (List.mem_cons_of_mem _ hq)
    refine ⟨c, by rw [performAll, hb]; exact hc, (hadds.trans hadds').congr fun f => ?_⟩
    simp

/-! ## Names that are refused -/

/-- An atlas refuses the empty name, so names that were not refused are not empty. -/
theorem ne_nil_of_addNames {i k : Nat} {names : List Text} (h : a.addNames i names = (b, .ok k)) :
    ∀ name ∈ names, name ≠ [] := by
  induction names generalizing a i with
  | nil => simp
  | cons name rest ih =>
    rw [addNames] at h
    split at h
    · simp at h
    · next c child hchild =>
      have hname : name ≠ [] := by
        rintro rfl
        simp [addChild] at hchild
      exact List.forall_mem_cons.2 ⟨hname, ih h⟩

theorem ne_nil_of_addBoth {ij : Nat × Nat} {first second : List Text}
    (h : a.addBoth first second = (b, .ok ij)) : ∀ path ∈ [first, second], ∀ name ∈ path, name ≠ [] := by
  unfold addBoth at h
  split at h
  · simp at h
  · next hfirst =>
    split at h
    · simp at h
    · next hsecond =>
      simpa using ⟨ne_nil_of_addNames hfirst, ne_nil_of_addNames hsecond⟩

theorem ne_nil_of_perform {r : Request} (h : a.perform r = (b, .ok ())) :
    ∀ path ∈ r.paths, ∀ name ∈ path, name ≠ [] := by
  cases r with
  | node names =>
    rw [perform] at h
    split at h
    · simp at h
    · next hnames => simpa [Request.paths] using ne_nil_of_addNames hnames
  | edge kind node other =>
    rw [perform] at h
    split at h
    · simp at h
    · next hboth => exact ne_nil_of_addBoth hboth

/-- **A run of requests that is not refused** has no empty names in it. -/
theorem ne_nil_of_performAll {requests : List Request} (h : a.performAll requests = (b, .ok ())) :
    ∀ r ∈ requests, ∀ path ∈ r.paths, ∀ name ∈ path, name ≠ [] := by
  induction requests generalizing a with
  | nil => simp
  | cons r rest ih =>
    rw [performAll] at h
    split at h
    · simp at h
    · next hperform => exact List.forall_mem_cons.2 ⟨ne_nil_of_perform hperform, ih h⟩

end Atlas

end HeaderAtlas
