import HeaderAtlas.Proofs.Atlas.History
import HeaderAtlas.Proofs.Atlas.Reload
/-!
# The path of a node is its identity

A node is named by its path: no two nodes have the same one, following it leads to the node, and asking for it
makes nothing (`fullName_identity`). A path that is asked for below a node gives a node whose path is that of the
first with the names behind it.

The path is read upwards, along the parents, and followed downwards, along the children; the two meet in the list
of names from the root (`findNames_namesTo`). For that the names need bytes, which all have, and no slashes.
That they are decoded matters only where a name is given from outside: it must not find a node that is written
otherwise with the same bytes.
-/

set_option autoImplicit false

namespace HeaderAtlas

namespace Atlas

variable {a b : Atlas} {i j k : Nat} {names more : List Text} {name : Text} {n : Node}

/-! ## Following names -/

theorem findNames_append (h : a.findNames i names = .ok (some j)) :
    a.findNames i (names ++ more) = a.findNames j more := by
  induction names generalizing i with
  | nil =>
    obtain rfl := Option.some.inj (Except.ok.inj h)
    rfl
  | cons name rest ih =>
    rw [findNames] at h
    rw [List.cons_append, findNames]
    split at h
    · simp at h
    · simp at h
    · exact ih h

/-- A node is found from its parent. -/
theorem findChild_of_parent (ha : a.WellFormed) (hn : a.node? i = some n) (hp : n.parent = some j) :
    a.findChild j n.name = .ok (some i) := by
  obtain ⟨m, hm, hmem⟩ := ha.listed hn hp
  -- Parents come before their children, so the root has none.
  have hroot : i ≠ root := by
    rintro rfl
    exact Nat.not_lt_zero j (ha.parent_lt hn hp)
  rw [findChild, (ha.named hn hroot).2, hm]
  exact congrArg Except.ok ((Node.child?_eq_some_iff (ha.sorted hm)).2 hmem)

/-- **The names from the root lead to the node**, by induction along its parents. -/
theorem findNames_namesTo (ha : a.WellFormed) (hi : i < a.size) : a.findNames root (a.namesTo i) = .ok (some i) := by
  induction i using Nat.strongRecOn with
  | ind i ih =>
    obtain ⟨n, hn⟩ := exists_node? hi
    cases hp : n.parent with
    | none =>
      rw [namesTo_of_root hn hp, ha.eq_root hn hp]
      rfl
    | some p =>
      obtain ⟨hlt, hnames⟩ := ha.namesTo_child hn hp
      rw [hnames, findNames_append (ih p hlt (by omega)), findNames, findChild_of_parent ha hn hp]
      rfl

/-- Asking for a child that is there makes nothing. -/
theorem addChild_of_findChild (hname : name ≠ []) (h : a.findChild i name = .ok (some j)) :
    a.addChild i name = .ok (a, j) := by
  rw [findChild] at h
  rw [addChild, if_neg (by simpa using hname)]
  split at h
  · simp at h
  · rw [Except.ok.inj h]

theorem addNames_of_findNames (hnames : ∀ name ∈ names, name ≠ []) (h : a.findNames i names = .ok (some j)) :
    a.addNames i names = (a, .ok j) := by
  induction names generalizing i with
  | nil =>
    obtain rfl := Option.some.inj (Except.ok.inj h)
    rfl
  | cons name rest ih =>
    rw [findNames] at h
    split at h
    · simp at h
    · simp at h
    · next c hc =>
      rw [addNames, addChild_of_findChild (hnames name List.mem_cons_self) hc]
      exact ih (fun x hx => hnames x (List.mem_cons_of_mem _ hx)) h

/-! ## Asking for names -/

/-- The child that was asked for has the bytes of its name, behind the names of its parent. -/
theorem namesTo_addChild (ha : a.WellFormed) (hi : i < a.size) (h : a.addChild i name = .ok (b, k)) :
    (b.namesTo k).map Text.key = (a.namesTo i ++ [name]).map Text.key := by
  obtain ⟨hb, hext, _⟩ := wellFormed_addChild ha hi h
  obtain ⟨m, hm, hmem⟩ := listed_addChild ha hi h
  obtain ⟨n, hn, hp, hkey⟩ := hb.child hm hmem
  rw [(hb.namesTo_child hn hp).2, hext.namesTo_eq ha hi, List.map_append, List.map_append, List.map_singleton,
    List.map_singleton, hkey]

/-- **Names that have bytes are never refused**, and lead to a node that has them up to their bytes. -/
theorem namesTo_addNames (ha : a.WellFormed) (hi : i < a.size)
    (hnames : ∀ name ∈ names, name ≠ [] ∧ name.encode = .ok name.key) :
    ∃ b k, a.addNames i names = (b, .ok k) ∧ (b.namesTo k).map Text.key = (a.namesTo i ++ names).map Text.key := by
  induction names generalizing a i with
  | nil => exact ⟨a, i, rfl, by rw [List.append_nil]⟩
  | cons name rest ih =>
    obtain ⟨hname, hbytes⟩ := hnames name List.mem_cons_self
    obtain ⟨b, c, hmade⟩ := exists_addChild a i hname hbytes
    obtain ⟨hb, _, hc⟩ := wellFormed_addChild ha hi hmade
    obtain ⟨b', k, hrest, hkeys⟩ := ih hb hc fun x hx => hnames x (List.mem_cons_of_mem _ hx)
    refine ⟨b', k, by rw [addNames, hmade]; exact hrest, ?_⟩
    rw [hkeys, List.map_append, namesTo_addChild ha hi hmade, ← List.map_append, List.append_assoc,
      List.singleton_append]

/-! ## Paths -/

/-- The path of a node with names behind it. Behind the root, which has no name, there is nothing to separate. -/
def pathBelow (a : Atlas) (i : Nat) (names : List Text) : Text :=
  Text.join Path.root (if i = root then names else a.fullName i Path.root :: names)

theorem pathBelow_eq (ha : a.WellFormed) (hi : i < a.size) (hnames : names ≠ []) :
    a.pathBelow i names = Text.join Path.root (a.namesTo i ++ names) := by
  rw [pathBelow]
  split
  · next hroot => rw [hroot, ha.namesTo_root, List.nil_append]
  · next hroot => rw [Text.join_append (namesTo_ne_nil ha hi hroot) hnames, fullName]

/-- **The path of a node is its identity.** Let the names of an atlas have no slashes. Different nodes have different
paths, and the path of every node but the root leads to the node and, where it is asked for, gives the node and
changes nothing. A path of names that have bytes, with any separator, is granted below any node; the path of the node
that it gives is the path of the first with the names behind it, up to the bytes of the names, and exactly if all names
are decoded. -/
theorem fullName_identity (h : Built a) (hslash : ∀ ⦃i n⦄, a.node? i = some n → Path.slash ∉ n.name) :
    (∀ i < a.size, ∀ j < a.size, a.fullName i Path.root = a.fullName j Path.root → i = j) ∧
    (∀ i < a.size, i ≠ root →
      a.navigate (.own root) (a.fullName i Path.root) Path.root = .ok (some i) ∧
      a.addPathFrom (.own root) (a.fullName i Path.root) Path.root = (a, .ok i)) ∧
    ∀ i < a.size, ∀ (sep : CodePoint) (path : Text), Segments.split sep path ≠ [] →
      (∀ name ∈ Segments.split sep path, name.encode = .ok name.key) →
      ∃ b k, a.addPathFrom (.own i) path [sep] = (b, .ok k) ∧
        (b.fullName k Path.root).key = (a.pathBelow i (Segments.split sep path)).key ∧
        (a.Decoded → (∀ name ∈ Segments.split sep path, name.Decoded) →
          b.fullName k Path.root = a.pathBelow i (Segments.split sep path)) := by
  have ha := h.wellFormed
  refine ⟨fun i hi j hj heq => ?_, fun i hi hroot => ?_, fun i hi sep path hpath hbytes => ?_⟩
  · -- No name has a slash, so a path comes apart into the names that it was joined from.
    have hnames := congrArg Path.components heq
    rw [components_fullName ha hslash hi, components_fullName ha hslash hj] at hnames
    exact At.unique ha ⟨hi, hnames⟩ (At.self hj)
  · have hnames := components_fullName ha hslash hi
    have hne : Path.components (a.fullName i Path.root) ≠ [] := hnames ▸ namesTo_ne_nil ha hi hroot
    have hfind : a.findNames root (Path.components (a.fullName i Path.root)) = .ok (some i) :=
      hnames ▸ findNames_namesTo ha hi
    rw [navigate, addPathFrom, wayFrom, pathNames_eq hne]
    exact ⟨hfind, addNames_of_findNames (fun name hname => (Segments.mem_split hname).1) hfind⟩
  · have hnames : ∀ name ∈ Segments.split sep path, name ≠ [] := fun name hname => (Segments.mem_split hname).1
    obtain ⟨b, k, hmade, hkeys⟩ := namesTo_addNames ha hi fun name hname => ⟨hnames name hname, hbytes name hname⟩
    refine ⟨b, k, by rw [addPathFrom, wayFrom, pathNames_split sep hpath]; exact hmade, ?_⟩
    rw [pathBelow_eq ha hi hpath]
    refine ⟨Text.key_join_congr hkeys, fun hd hdec => ?_⟩
    -- The bytes alone do not give the name: the child that was found may be spelt otherwise, unless all are decoded.
    obtain ⟨b', k', hmade', _, hat⟩ :=
      addNames_adds ha hd (At.self hi) fun name hname => ⟨hnames name hname, hdec name hname⟩
    rw [hmade] at hmade'
    obtain ⟨rfl, hk⟩ := Prod.mk.inj hmade'
    obtain rfl := Except.ok.inj hk
    rw [fullName, hat.2]

/-- An atlas with one name at two places, and a name that is no UTF-8. -/
def namedAtlas : Atlas :=
  [Operation.addPath (.own root) "a/b" Path.root, .addPath (.own 2) ":c::a" [CodePoint.ofChar ':'],
    .addChild (.own 1) [CodePoint.ofNat 0xDCFF], .addDependencyPath (.own 3) "/b//a" Path.root].foldl
      Operation.apply empty

theorem fullName_identity_nested :
    namedAtlas.size = 8 ∧
    (∀ i < namedAtlas.size, ∀ j < namedAtlas.size,
      namedAtlas.fullName i Path.root = namedAtlas.fullName j Path.root → i = j) ∧
    namedAtlas.navigate (.own root) (namedAtlas.fullName 5 Path.root) Path.root = .ok (some 5) ∧
    namedAtlas.addPathFrom (.own root) (namedAtlas.fullName 7 Path.root) Path.root = (namedAtlas, .ok 7) ∧
    ∃ b k, namedAtlas.addPathFrom (.own 4) ";d;;a;" [CodePoint.ofChar ';'] = (b, .ok k) ∧
      b.fullName k Path.root = Text.ofString "a/b/c/a/d/a" := by
  have hbuilt : Built namedAtlas := Built.empty.applyAll (by decide +kernel)
  have hportable : namedAtlas.Portable := by decide +kernel
  obtain ⟨hinjective, hleads, hbelow⟩ := fullName_identity hbuilt hportable.slashless
  have hsize : namedAtlas.size = 8 := by decide +kernel
  obtain ⟨b, k, hmade, _, hname⟩ := hbelow 4 (by decide +kernel) (CodePoint.ofChar ';') ";d;;a;" (by decide +kernel)
    (by decide +kernel)
  refine ⟨hsize, hinjective, (hleads 5 (by decide +kernel) (by decide)).1, (hleads 7 (by decide +kernel) (by decide)).2,
    b, k, hmade, ?_⟩
  rw [hname hportable.decoded (by decide +kernel)]
  decide +kernel

end Atlas

end HeaderAtlas
