import HeaderAtlas.Atlas.Reference
import HeaderAtlas.Proofs.Atlas.Document
import Mathlib.Tactic.Tauto
/-!
# The order of requests

A caller fills an atlas with paths, each of which is followed from the root, and with edges between
the nodes at two paths. Requests are numbered as they come, so the arenas that two orders give differ.
Their documents do not: what holds after a run depends only on which requests it is made of, not on
their order nor on how often each is made.
-/

set_option autoImplicit false

namespace HeaderAtlas

/-- What a caller asks for by path: a node, or an edge of either kind between two nodes. -/
inductive PathRequest where
  | node (path : Text)
  | edge (kind : EdgeKind) (node other : Text)
  deriving DecidableEq, Repr

namespace PathRequest

/-- The node at one path includes that at another. -/
abbrev dependency (source target : Text) : PathRequest := .edge .dependency source target

/-- The node at one path is included by that at another. -/
abbrev dependent (included source : Text) : PathRequest := .edge .dependent included source

/-- The paths in a request. -/
def paths : PathRequest → List Text
  | .node path => [path]
  | .edge _ first second => [first, second]

/-- Every path in a request has a name, and all its names are decoded. -/
def Fits (r : PathRequest) : Prop := ∀ path ∈ r.paths, Path.Leads path

/-- The request with its paths taken apart. -/
def toRequest : PathRequest → Request
  | .node path => .node (Path.components path)
  | .edge kind first second => .edge kind (Path.components first) (Path.components second)

/-- A request that fits still does so with its paths taken apart. -/
theorem Fits.toRequest {r : PathRequest} (h : r.Fits) : r.toRequest.Fits := by
  intro names hnames name hname
  have hpath : ∃ path ∈ r.paths, names = Path.components path := by
    cases r <;> simpa [PathRequest.toRequest, Request.paths, PathRequest.paths] using hnames
  obtain ⟨path, hmem, rfl⟩ := hpath
  exact (h path hmem).names name hname

end PathRequest

namespace Atlas

/-- Follows two paths from the root, the first one first, and makes what is missing. -/
def addBothPaths (a : Atlas) (first second : Text) : Atlas × Except AtlasFault (NodeRef × NodeRef) :=
  match a.addPathFrom (.own root) first Path.root with
  | (b, .error e) => (b, .error e)
  | (b, .ok i) =>
    match b.addPathFrom (.own root) second Path.root with
    | (c, .error e) => (c, .error e)
    | (c, .ok j) => (c, .ok (.own i, .own j))

/-- Does what a caller asks for. -/
def carryOut (a : Atlas) : PathRequest → Atlas × Except AtlasFault Unit
  | .node path => (a.addPathFrom (.own root) path Path.root).map id (Except.map fun _ => ())
  | .edge kind first second =>
    match a.addBothPaths first second with
    | (b, .error e) => (b, .error e)
    | (b, .ok (i, j)) => (b.addEdgeOf kind i j).map id (Except.map fun _ => ())

/-- Does what a caller asks for, one request after the other, up to the first that is refused. -/
def carryOutAll (a : Atlas) : List PathRequest → Atlas × Except AtlasFault Unit
  | [] => (a, .ok ())
  | request :: rest =>
    match a.carryOut request with
    | (b, .error e) => (b, .error e)
    | (b, .ok ()) => b.carryOutAll rest

variable {a b : Atlas}

/-- A path with at least one name is followed name by name. -/
theorem addPathFrom_root {path : Text} (h : Path.components path ≠ []) :
    a.addPathFrom (.own root) path Path.root = a.addNames root (Path.components path) := by
  rw [addPathFrom, wayFrom, pathNames_eq h]
  rfl

theorem addBothPaths_eq {first second : Text} (h : Path.components first ≠ [])
    (h' : Path.components second ≠ []) :
    a.addBothPaths first second = (a.addBoth (Path.components first) (Path.components second)).map id
      (Except.map fun (i, j) => (NodeRef.own i, NodeRef.own j)) := by
  rw [addBothPaths, addBoth, addPathFrom_root h]
  rcases a.addNames root (Path.components first) with ⟨b, e | i⟩
  · rfl
  · dsimp only
    rw [addPathFrom_root h']
    rcases b.addNames root (Path.components second) with ⟨c, e | j⟩
    · rfl
    · rfl

/-- A request by path is the request with its paths taken apart. -/
theorem carryOut_eq {r : PathRequest} (h : r.Fits) : a.carryOut r = a.perform r.toRequest := by
  cases r with
  | node path =>
    have hpath := (h path (by simp [PathRequest.paths])).1
    rw [carryOut, addPathFrom_root hpath, PathRequest.toRequest, perform]
    rcases a.addNames root (Path.components path) with ⟨b, e | i⟩
    · rfl
    · rfl
  | edge kind first second =>
    have hfirst := (h first (by simp [PathRequest.paths])).1
    have hsecond := (h second (by simp [PathRequest.paths])).1
    rw [carryOut, addBothPaths_eq hfirst hsecond, PathRequest.toRequest, perform]
    rcases a.addBoth (Path.components first) (Path.components second) with ⟨b, e | ⟨i, j⟩⟩
    · rfl
    · rfl

theorem carryOutAll_eq {requests : List PathRequest} (h : ∀ r ∈ requests, r.Fits) :
    a.carryOutAll requests = a.performAll (requests.map PathRequest.toRequest) := by
  induction requests generalizing a with
  | nil => rfl
  | cons r rest ih =>
    rw [carryOutAll, carryOut_eq (h r List.mem_cons_self), List.map_cons, performAll]
    rcases a.perform r.toRequest with ⟨b, e | _⟩
    · rfl
    · exact ih fun q hq => h q (List.mem_cons_of_mem _ hq)

/-- What holds after a run from an empty atlas depends on the set of its requests alone. -/
theorem performAll_sameFacts {xs ys : List Request} (hx : ∀ r ∈ xs, r.Fits)
    (h : ∀ r, r ∈ xs ↔ r ∈ ys) :
    ∃ a b, empty.performAll xs = (a, .ok ()) ∧ empty.performAll ys = (b, .ok ()) ∧
      a.WellFormed ∧ b.WellFormed ∧ a.Decoded ∧ b.Decoded ∧ SameFacts a b := by
  obtain ⟨a, ha, hadds⟩ := performAll_adds wellFormed_empty decoded_empty hx
  obtain ⟨b, hb, hadds'⟩ := performAll_adds wellFormed_empty decoded_empty
    fun r hr => hx r ((h r).2 hr)
  refine ⟨a, b, ha, hb, hadds.wellFormed, hadds'.wellFormed, hadds.decoded, hadds'.decoded, fun f => ?_⟩
  rw [hadds.holds, hadds'.holds]
  exact or_congr Iff.rfl (exists_congr fun r => and_congr (h r) Iff.rfl)

/-- **The order of requests does not show.** Two runs from an empty atlas that are made of the same
requests, in any order and with any repetitions, both succeed, and the texts of the two atlases are
the same in every style. -/
theorem dump_carryOutAll_eq {xs ys : List PathRequest} (hx : ∀ r ∈ xs, r.Fits)
    (h : ∀ r, r ∈ xs ↔ r ∈ ys) :
    ∃ a b, empty.carryOutAll xs = (a, .ok ()) ∧ empty.carryOutAll ys = (b, .ok ()) ∧
      ∀ style, a.dump style = b.dump style := by
  have hmem : ∀ r, r ∈ xs.map PathRequest.toRequest ↔ r ∈ ys.map PathRequest.toRequest := by
    intro r
    rw [List.mem_map, List.mem_map]
    exact exists_congr fun q => and_congr (h q) Iff.rfl
  have hfits : ∀ r ∈ xs.map PathRequest.toRequest, r.Fits := by
    intro r hr
    obtain ⟨q, hq, rfl⟩ := List.mem_map.1 hr
    exact (hx q hq).toRequest
  obtain ⟨a, b, ha, hb, hwa, hwb, hda, hdb, hsame⟩ := performAll_sameFacts hfits hmem
  refine ⟨a, b, by rw [carryOutAll_eq hx, ha], ?_, fun style => dump_eq_of_sameFacts hwa hwb hda hdb hsame style⟩
  rw [carryOutAll_eq fun r hr => hx r ((h r).2 hr), hb]

/-- A cycle, a child named as the member for edges, a name that is no UTF-8, and repetitions. -/
theorem dump_carryOutAll_eq_cycle :
    let request := PathRequest.dependency "a/$meta" "//a/b/"
    let back := PathRequest.dependent "a/$meta" "a/b"
    let odd := PathRequest.node [CodePoint.ofNat 0xDCFF]
    ∃ a b, empty.carryOutAll [request, back, odd] = (a, .ok ()) ∧
      empty.carryOutAll [odd, back, odd, request, back] = (b, .ok ()) ∧
      ∀ style, a.dump style = b.dump style := by
  refine dump_carryOutAll_eq ?_ ?_
  · simp only [List.forall_mem_cons, PathRequest.Fits, PathRequest.paths, Path.Leads]
    decide
  · intro r
    simp only [List.mem_cons, List.not_mem_nil]
    tauto

end Atlas

end HeaderAtlas
