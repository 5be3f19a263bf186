import HeaderAtlas.Proofs.Atlas.Document
import HeaderAtlas.Proofs.Atlas.History
import Mathlib.Data.List.Nodup
/-!
# The arena after any calls

A caller that has an empty atlas in hand may make any calls: those that change it, those that only ask
for a node, those that are refused before anything is done and those that are refused midway. Whatever
the calls, the arena keeps its shape (`Atlas.Arena`), and climbing from a node by its parents comes to the
root (`Atlas.Climbs`).

The invariant that carries the induction over the calls is `Atlas.WellFormed`; here it is read off as what
a caller sees: which nodes have parents and names, where a node is listed, and how lists are ordered.
-/

set_option autoImplicit false

namespace HeaderAtlas

/-! ## Calls -/

/-- What a caller may ask of an atlas: an operation, or a question about which node is there. -/
inductive Call where
  | operation (op : Operation)
  | findChild (node : NodeRef) (name : Text)
  | navigate (start : NodeRef) (path sep : Text)

namespace Call

/-- The nodes that a call is given. -/
def nodes : Call → List NodeRef
  | .operation op => op.nodes
  | .findChild node _ => [node]
  | .navigate start _ _ => [start]

/-- The atlas after a call, whether that was refused or not, and what a question was answered. -/
def make (a : Atlas) : Call → Atlas × Option (Except AtlasFault (Option Nat))
  | .operation op => (op.apply a, none)
  | .findChild node name => (a, some (a.findChildOf node name))
  | .navigate start path sep => (a, some (a.navigate start path sep))

/-- The atlas after calls that are made one after the other. -/
def makeAll (a : Atlas) : List Call → Atlas
  | [] => a
  | call :: rest => makeAll (call.make a).1 rest

/-- At every call, the nodes that are given as nodes of the atlas are there. -/
def Sensible (a : Atlas) : List Call → Prop
  | [] => True
  | call :: rest => (∀ node ∈ call.nodes, node.In a) ∧ Sensible (call.make a).1 rest

instance decidableSensible (a : Atlas) : (calls : List Call) → Decidable (Sensible a calls)
  | [] => inferInstanceAs (Decidable True)
  | call :: rest =>
    have := decidableSensible (call.make a).1 rest
    inferInstanceAs (Decidable ((∀ node ∈ call.nodes, node.In a) ∧ Sensible (call.make a).1 rest))

variable {a : Atlas}

/-- **One call** keeps the arena well-formed. -/
theorem wellFormed_make (call : Call) (ha : a.WellFormed) (h : ∀ node ∈ call.nodes, node.In a) :
    (call.make a).1.WellFormed := by
  cases call with
  | operation op => exact (Operation.grows ha h).wellFormed
  | findChild node name => exact ha
  | navigate start path sep => exact ha

/-- **Any number of calls** keep it well-formed. -/
theorem wellFormed_makeAll (calls : List Call) (ha : a.WellFormed) (h : Sensible a calls) :
    (makeAll a calls).WellFormed := by
  induction calls generalizing a with
  | nil => exact ha
  | cons call rest ih =>
    obtain ⟨hcall, hrest⟩ := h
    exact ih (wellFormed_make call ha hcall) hrest

end Call

/-! ## What a caller sees -/

namespace Atlas

variable {a : Atlas} {i p : Nat} {n : Node}

/-- The shape of an arena. -/
structure Arena (a : Atlas) : Prop where
  /-- The root is there. -/
  rooted : root < a.size
  /-- The root and no other node is without a parent, and without a name. -/
  root_iff : ∀ i n, a.node? i = some n → (n.parent = none ↔ i = root) ∧ (n.name = [] ↔ i = root)
  /-- A parent has a smaller number than its children. -/
  parent_lt : ∀ i p, a.parent? i = some p → p < i
  /-- A node is listed once among the children of its parent, and nowhere else. -/
  count_children : ∀ p c, (a.children p).count c = if a.parent? c = some p then 1 else 0
  /-- The bytes with which children are listed are in strict order. -/
  sorted : ∀ p m, a.node? p = some m → (m.children.map (·.1)).Pairwise (· < ·)
  /-- A child is listed with the bytes of its name. -/
  keyed : ∀ p m, a.node? p = some m → ∀ entry ∈ m.children,
    ∃ n, a.node? entry.2 = some n ∧ n.name.encode = .ok entry.1
  /-- Dependencies are numbers of nodes, in strict order. -/
  dependencies : ∀ i, (a.dependencies i).Pairwise (· < ·) ∧ ∀ j ∈ a.dependencies i, j < a.size
  /-- Dependents are numbers of nodes, in strict order. -/
  dependents : ∀ i, (a.dependents i).Pairwise (· < ·) ∧ ∀ j ∈ a.dependents i, j < a.size

/-- Climbing from a node by its parents ends at a node without one; `names` are the names met on the
way, the last one met first. -/
inductive Climbs (a : Atlas) : Nat → List Text → Nat → Prop
  | top {i : Nat} {n : Node} : a.node? i = some n → n.parent = none → Climbs a i [] i
  | up {i p top : Nat} {n : Node} {names : List Text} : a.node? i = some n → n.parent = some p →
      Climbs a p names top → Climbs a i (names ++ [n.name]) top

namespace WellFormed

theorem parent_eq_none_iff (ha : a.WellFormed) (h : a.node? i = some n) :
    n.parent = none ↔ i = Atlas.root := by
  constructor
  · exact ha.eq_root h
  · rintro rfl
    obtain ⟨m, hm, _, hp⟩ := ha.root
    rw [h] at hm
    rw [Option.some.inj hm, hp]

theorem name_eq_nil_iff (ha : a.WellFormed) (h : a.node? i = some n) : n.name = [] ↔ i = Atlas.root := by
  constructor
  · intro hname
    by_cases hi : i = Atlas.root
    · exact hi
    · exact absurd hname (ha.named h hi).1
  · rintro rfl
    obtain ⟨m, hm, hname, _⟩ := ha.root
    rw [h] at hm
    rw [Option.some.inj hm, hname]

/-- No child is listed twice: its bytes would be listed twice, and they are in strict order. -/
theorem nodup_children (ha : a.WellFormed) (p : Nat) : (a.children p).Nodup := by
  unfold Atlas.children
  cases hm : a.node? p with
  | none => simp
  | some m =>
    rw [Option.map_some, Option.getD_some, List.Nodup, List.pairwise_map]
    refine (ha.sorted hm).imp_of_mem ?_
    rintro ⟨key, c⟩ ⟨key', c'⟩ hc hc' hlt heq
    obtain ⟨n, hn, _, hkey⟩ := ha.child hm hc
    obtain ⟨n', hn', _, hkey'⟩ := ha.child hm hc'
    -- One number is one node, and one node has one name.
    have hsame : n = n' := by
      rw [show c = c' from heq] at hn
      exact Option.some.inj (hn.symm.trans hn')
    rw [← hkey, ← hkey', hsame] at hlt
    exact List.lt_irrefl _ hlt

theorem parent?_eq_some_iff {c : Nat} : a.parent? c = some p ↔ ∃ n, a.node? c = some n ∧ n.parent = some p :=
  Option.bind_eq_some_iff

theorem count_children (ha : a.WellFormed) (p c : Nat) :
    (a.children p).count c = if a.parent? c = some p then 1 else 0 := by
  by_cases hp : a.parent? c = some p
  · rw [if_pos hp]
    exact List.count_eq_one_of_mem (ha.nodup_children p) (ha.mem_children.2 (parent?_eq_some_iff.1 hp))
  · rw [if_neg hp]
    exact List.count_eq_zero.2 fun hmem => hp (parent?_eq_some_iff.2 (ha.mem_children.1 hmem))

/-- A child that is listed is no root, so it has a name with bytes. -/
theorem encode_of_listed (ha : a.WellFormed) {m : Node} (hm : a.node? p = some m) {entry : Bytes × Nat}
    (h : entry ∈ m.children) : ∃ n, a.node? entry.2 = some n ∧ n.name.encode = .ok entry.1 := by
  obtain ⟨n, hn, hp, hkey⟩ := ha.child hm h
  have hne : entry.2 ≠ Atlas.root := by
    intro hroot
    have hlt := ha.parent_lt hn hp
    rw [hroot] at hlt
    exact Nat.not_lt_zero p hlt
  refine ⟨n, hn, ?_⟩
  rw [(ha.named hn hne).2, hkey]

/-- **A well-formed arena** has the shape that a caller sees. -/
theorem arena (ha : a.WellFormed) : a.Arena where
  rooted := ha.root_lt
  root_iff _ _ h := ⟨ha.parent_eq_none_iff h, ha.name_eq_nil_iff h⟩
  parent_lt _ _ h := by
    obtain ⟨n, hn, hp⟩ := parent?_eq_some_iff.1 h
    exact ha.parent_lt hn hp
  count_children := ha.count_children
  sorted _ _ h := List.pairwise_map.2 (ha.sorted h)
  keyed _ _ h _ hentry := ha.encode_of_listed h hentry
  dependencies i := ⟨ha.pairwise_edges .dependency i, fun _ hj => (ha.lt_size_of_mem_edges hj).2⟩
  dependents i := ⟨ha.pairwise_edges .dependent i, fun _ hj => (ha.lt_size_of_mem_edges hj).2⟩

/-- **Every climb comes to the root**, and meets the names that lead from there to the node. -/
theorem climbs (ha : a.WellFormed) (hi : i < a.size) : a.Climbs i (a.namesTo i) Atlas.root := by
  -- The induction is on the number of the node; that of its parent is smaller.
  induction i using Nat.strongRecOn with
  | ind i ih =>
    obtain ⟨n, hn⟩ := exists_node? hi
    cases hp : n.parent with
    | none =>
      rw [namesTo_of_root hn hp]
      obtain rfl := ha.eq_root hn hp
      exact .top hn hp
    | some p =>
      obtain ⟨hlt, hnames⟩ := ha.namesTo_child hn hp
      rw [hnames]
      exact .up hn hp (ih p hlt (by omega))

end WellFormed

end Atlas

namespace Call

open Atlas

/-- **Whatever is called, the arena keeps its shape.** After any calls on an empty atlas, also refused ones,
the arena has its shape, and from every node the climb to the top ends at the root, which is what `rootOf`
gives; the names met on the way are those of the node's path. -/
theorem arena_makeAll (calls : List Call) (h : Sensible Atlas.empty calls) :
    let a := makeAll Atlas.empty calls
    a.Arena ∧ ∀ i, i < a.size → a.rootOf i = Atlas.root ∧
      ∃ names, a.Climbs i names Atlas.root ∧ ∀ sep, a.fullName i sep = Text.join sep names := by
  intro a
  have ha : a.WellFormed := wellFormed_makeAll calls wellFormed_empty h
  refine ⟨ha.arena, ?_⟩
  intro i hi
  exact ⟨rootOf_eq ha hi, a.namesTo i, ha.climbs hi, fun sep => rfl⟩

/-- Calls of which most are refused: one on a node of another atlas, a path with a second name that has no
bytes, and a document whose last edge list is malformed. What the latter two made before stays. -/
def mixedCalls : List Call :=
  [ .operation (.addChild (.foreign 7 "x") "a"),
    .operation (.addPath (.own 0) (Text.ofString "b/" ++ [CodePoint.ofNat 0xD800]) "/"),
    .findChild (.own 0) "b",
    .operation (.load (.obj [("a", .obj []), ("b", .obj [("$meta", .obj [("deps", .arr [.str "c/a", .str "a"]),
      ("rdeps", .arr [.null])])])])),
    .navigate (.own 3) "a" "/",
    .operation (.addDependent (.own 3) (.own 1)),
    .operation .reconstruct ]

/-- The arena after these calls has five nodes, the second of which has two dependencies. -/
theorem arena_makeAll_mixed :
    (makeAll Atlas.empty mixedCalls).size = 5 ∧
      (makeAll Atlas.empty mixedCalls).dependencies 1 = [2, 4] ∧
      (makeAll Atlas.empty mixedCalls).Arena := by
  exact ⟨by decide +kernel, by decide +kernel, (arena_makeAll mixedCalls (by decide +kernel)).1⟩

end Call

end HeaderAtlas
