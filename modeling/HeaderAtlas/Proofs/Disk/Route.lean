import HeaderAtlas.Proofs.Disk.Sound
import Mathlib.Data.List.Perm.Subperm
/-!
# The route that a look-up takes

A look-up that finds something goes from place to place: it stays, goes up, goes down to what is no link, or comes to
a link that shows its target, goes to where that leads and goes on from there (`Disk.Route`). The links that are met
are part of the route, with those that are met inside others. From one place by the same names there is only one route
(`Disk.Route.unique`), so a link is never met while it is being followed: the route inside would have to be as long as
the one around it (`Disk.Pending.notMem`).

So links that lie inside one another are different links of the disk. This bounds how deep following them can go
without any bound being part of the route.
-/

set_option autoImplicit false

namespace HeaderAtlas

/-! ## The places of links -/

namespace Entry

mutual

/-- The places of the links at and below an entry. There are as many as links are counted, and they are what the depth
of following is measured by. -/
def linkPlaces : Entry → List (List Bytes)
  | .link _ _ => [[]]
  | .directory entries _ => linkPlacesAll entries
  | _ => []

/-- The places of the links at and below the entries of a list. -/
def linkPlacesAll : List (Bytes × Entry) → List (List Bytes)
  | [] => []
  | (name, e) :: rest => (linkPlaces e).map (name :: ·) ++ linkPlacesAll rest

end

mutual

theorem length_linkPlaces : ∀ e : Entry, e.linkPlaces.length = e.linkCount
  | .link _ _ => rfl
  | .directory entries _ => by rw [linkPlaces, linkCount, length_linkPlacesAll entries]
  | .file _ _ => rfl
  | .pipe _ _ => rfl
  | .device _ _ => rfl

theorem length_linkPlacesAll : ∀ entries : List (Bytes × Entry),
    (linkPlacesAll entries).length = linkCountAll entries
  | [] => rfl
  | (name, e) :: rest => by
    rw [linkPlacesAll, linkCountAll, List.length_append, List.length_map, length_linkPlaces e,
      length_linkPlacesAll rest]

end

theorem mem_linkPlacesAll {name : Bytes} {e : Entry} {place : List Bytes} {entries : List (Bytes × Entry)}
    (hmem : (name, e) ∈ entries) (h : place ∈ e.linkPlaces) : name :: place ∈ linkPlacesAll entries := by
  induction entries with
  | nil => simp at hmem
  | cons entry rest ih =>
    obtain ⟨n, e'⟩ := entry
    rw [linkPlacesAll, List.mem_append]
    rcases List.mem_cons.1 hmem with heq | hmem
    · obtain ⟨rfl, rfl⟩ := Prod.mk.inj heq
      exact .inl (List.mem_map_of_mem h)
    · exact .inr (ih hmem)

theorem mem_linkPlaces {e : Entry} {place : List Bytes} {target : Bytes} {access : Access}
    (h : e.at? place = some (.link target access)) : place ∈ e.linkPlaces := by
  induction place generalizing e with
  | nil =>
    obtain rfl := Option.some.inj h
    exact List.mem_singleton_self _
  | cons name place ih =>
    obtain ⟨below, hbelow, hrest⟩ := Option.bind_eq_some_iff.1 h
    cases e with
    | directory entries _ => exact mem_linkPlacesAll (mem_of_find? hbelow) (ih hrest)
    | _ => simp [child?] at hbelow

end Entry

namespace Disk

variable {disk : Disk} {place names q : List Bytes} {name : Bytes} {e : Entry} {met : List (List Bytes)}

/-! ## Steps -/

/-- A place has a directory that may be passed through. -/
def IsOpen (disk : Disk) (place : List Bytes) : Prop := ∃ entries, disk.Passable place entries

/-- The directory at a place may be passed through, and has an entry with a name. -/
structure Holds (disk : Disk) (place : List Bytes) (name : Bytes) (e : Entry) : Prop extends
    Downward name where
  listed : ∃ entries, disk.Passable place entries ∧ Entry.find? name entries = some e
  short : name.length ≤ maxName

theorem Holds.at? (h : disk.Holds place name e) : disk.at? (place ++ [name]) = some e := by
  obtain ⟨entries, ⟨access, hdir, _⟩, hfind⟩ := h.listed
  unfold Disk.at? at hdir ⊢
  rw [Entry.at?_append, hdir]
  simp [Entry.at?, Entry.child?, hfind]

theorem Holds.unique {e' : Entry} (h : disk.Holds place name e) (h' : disk.Holds place name e') : e = e' :=
  Option.some.inj (h.at?.symm.trans h'.at?)

/-- A place that is come to by going down from the root, past no link. Its own entry may not be a link either. -/
inductive Plain (disk : Disk) : List Bytes → Prop
  | root : Plain disk []
  | down {place : List Bytes} {name : Bytes} {e : Entry} : Plain disk place → disk.Holds place name e →
      e.isLink = false → Plain disk (place ++ [name])

theorem Plain.dropLast (h : disk.Plain place) : disk.Plain place.dropLast := by
  cases h with
  | root => exact .root
  | down h _ _ => rwa [List.dropLast_concat]

theorem Plain.of_concat (h : disk.Plain (place ++ [name])) :
    ∃ e, disk.Plain place ∧ disk.Holds place name e ∧ e.isLink = false := by
  generalize hall : place ++ [name] = all at h
  cases h with
  | root => simp at hall
  | down h hholds he =>
    obtain ⟨rfl, hname⟩ := List.append_inj' hall rfl
    obtain rfl := List.singleton_inj.1 hname
    exact ⟨_, h, hholds, he⟩

/-- All places on the way to a plain place are plain. -/
theorem Plain.of_initial {above : List Bytes} (h : disk.Plain place) (habove : above <+: place) :
    disk.Plain above := by
  induction h with
  | root =>
    rw [List.prefix_nil.1 habove]
    exact .root
  | down h hholds he ih =>
    rcases List.prefix_concat_iff.1 habove with rfl | habove
    · exact .down h hholds he
    · exact ih habove

/-- The place from which the target of a link at a plain place is followed. -/
theorem Plain.start (h : disk.Plain place) (target : Bytes) :
    disk.Plain (if isRooted target then [] else place) := by
  split
  · exact .root
  · exact h

/-- A walk goes down to what is no link. -/
theorem Holds.walk_eq {follow want : Bool} {links : Nat} (h : disk.Holds place name e) (he : e.isLink = false)
    (rest : List Bytes) :
    walk disk follow want links place (name :: rest) = walk disk follow want links (place ++ [name]) rest := by
  obtain ⟨entries, hdir, hfind⟩ := h.listed
  refine walk_down hdir h.toDownward h.short hfind ?_
  rintro target access rfl
  simp [Entry.isLink] at he

/-- A walk to a plain place goes straight there. -/
theorem Plain.walk_eq {follow want : Bool} {links : Nat} (h : disk.Plain place) (more : List Bytes) :
    walk disk follow want links [] (place ++ more) = walk disk follow want links place more := by
  induction h generalizing more with
  | root => rfl
  | down _ hholds he ih => rw [← List.append_cons, ih, hholds.walk_eq he]

/-! ## Routes -/

/-- A look-up goes from a place by some names, meets some links, and comes to a place. It is a relation and has no
bound on the links in it; a look-up has one. -/
inductive Route (disk : Disk) : List Bytes → List Bytes → List (List Bytes) → List Bytes → Prop
  | here {place : List Bytes} : Route disk place [] [] place
  | stay {place rest q : List Bytes} {met : List (List Bytes)} : disk.IsOpen place →
      Route disk place rest met q → Route disk place (dot :: rest) met q
  | up {place rest q : List Bytes} {met : List (List Bytes)} : disk.IsOpen place →
      Route disk place.dropLast rest met q → Route disk place (dotDot :: rest) met q
  | down {place rest q : List Bytes} {name : Bytes} {e : Entry} {met : List (List Bytes)} :
      disk.Holds place name e → e.isLink = false → Route disk (place ++ [name]) rest met q →
        Route disk place (name :: rest) met q
  | link {place rest mid q : List Bytes} {name target : Bytes} {access : Access} {inner outer : List (List Bytes)} :
      disk.Holds place name (.link target access) → access.read = true →
        Route disk (if isRooted target then [] else place) (pathNames target) inner mid →
        Route disk mid rest outer q → Route disk place (name :: rest) ((place ++ [name]) :: inner ++ outer) q

namespace Route

/-- **A route is determined** by where it starts and by its names. By induction on the route: at each name the disk
allows one step only. -/
theorem unique {met' : List (List Bytes)} {q' : List Bytes} (h : disk.Route place names met q)
    (h' : disk.Route place names met' q') : met = met' ∧ q = q' := by
  induction h generalizing met' q' with
  | here =>
    cases h'
    exact ⟨rfl, rfl⟩
  | stay _ _ ih =>
    cases h' with
    | stay _ h' => exact ih h'
    | down hholds _ _ => exact absurd rfl hholds.ne_dot
    | link hholds _ _ _ => exact absurd rfl hholds.ne_dot
  | up _ _ ih =>
    cases h' with
    | up _ h' => exact ih h'
    | down hholds _ _ => exact absurd rfl hholds.ne_dotDot
    | link hholds _ _ _ => exact absurd rfl hholds.ne_dotDot
  | down hholds he _ ih =>
    cases h' with
    | stay _ _ => exact absurd rfl hholds.ne_dot
    | up _ _ => exact absurd rfl hholds.ne_dotDot
    | down _ _ h' => exact ih h'
    | link hholds' _ _ _ =>
      rw [hholds.unique hholds'] at he
      simp [Entry.isLink] at he
  | link hholds _ _ _ ihInner ihOuter =>
    cases h' with
    | stay _ _ => exact absurd rfl hholds.ne_dot
    | up _ _ => exact absurd rfl hholds.ne_dotDot
    | down hholds' he _ =>
      rw [← hholds.unique hholds'] at he
      simp [Entry.isLink] at he
    | link hholds' _ hinner houter =>
      -- The same link has the same target, and the routes inside it and behind it are determined in turn.
      obtain ⟨rfl, _⟩ := Entry.link.inj (hholds.unique hholds')
      obtain ⟨rfl, rfl⟩ := ihInner hinner
      obtain ⟨rfl, rfl⟩ := ihOuter houter
      exact ⟨rfl, rfl⟩

/-- A route by two lists of names goes by the one and then by the other. -/
theorem of_append {more : List Bytes} (h : disk.Route place (names ++ more) met q) :
    ∃ mid inner outer, disk.Route place names inner mid ∧ disk.Route mid more outer q ∧
      met = inner ++ outer := by
  induction names generalizing place met with
  | nil => exact ⟨place, [], met, .here, h, rfl⟩
  | cons name names ih =>
    rw [List.cons_append] at h
    cases h with
    | stay hopen h =>
      obtain ⟨mid, inner, outer, hinner, houter, rfl⟩ := ih h
      exact ⟨mid, inner, outer, .stay hopen hinner, houter, rfl⟩
    | up hopen h =>
      obtain ⟨mid, inner, outer, hinner, houter, rfl⟩ := ih h
      exact ⟨mid, inner, outer, .up hopen hinner, houter, rfl⟩
    | down hholds he h =>
      obtain ⟨mid, inner, outer, hinner, houter, rfl⟩ := ih h
      exact ⟨mid, inner, outer, .down hholds he hinner, houter, rfl⟩
    | link hholds hread htarget h =>
      obtain ⟨mid, inner, outer, hinner, houter, rfl⟩ := ih h
      exact ⟨mid, _, outer, .link hholds hread htarget hinner, houter, by simp⟩

/-- A route keeps to plain places, since the place behind a link is where its target leads and not where it lies. -/
theorem plain (h : disk.Route place names met q) (hplace : disk.Plain place) : disk.Plain q := by
  induction h with
  | here => exact hplace
  | stay _ _ ih => exact ih hplace
  | up _ _ ih => exact ih hplace.dropLast
  | down hholds he _ ih => exact ih (.down hplace hholds he)
  | link _ _ _ _ ihInner ihOuter => exact ihOuter (ihInner (hplace.start _))

end Route

/-- The way to a plain place from the root meets no link. -/
theorem Plain.route (h : disk.Plain place) (hroute : disk.Route place names met q) :
    disk.Route [] (place ++ names) met q := by
  induction h generalizing names with
  | root => exact hroute
  | down _ hholds he ih =>
    rw [← List.append_cons]
    exact ih (.down hholds he hroute)

/-- **A look-up that follows links takes a route**, and meets no more links than it may. A link that is followed
puts its target's names before the names that are left, so the route by all of them is cut in two. -/
theorem route_of_walk {want s : Bool} {links : Nat}
    (h : walk disk true want links place names = .ok (.found q e s)) :
    ∃ met, disk.Route place names met q ∧ met.length ≤ links := by
  -- The cases are those of the walk. Where it ends with an error there is nothing to show.
  generalize hfollow : true = follow at h
  fun_induction walk disk follow want links place names with
  | case1 => simp at h
  | case2 want links place entry hentry =>
    obtain ⟨rfl, _, _⟩ := Target.found.inj (Except.ok.inj h)
    exact ⟨[], .here, Nat.zero_le _⟩
  | case3 => simp at h
  | case4 want links place rest entries access hdir hsearch ih =>
    obtain ⟨met, hroute, hmet⟩ := ih h
    exact ⟨met, .stay ⟨entries, passable hdir hsearch⟩ hroute, hmet⟩
  | case5 want links place rest entries access hdir hsearch _ ih =>
    obtain ⟨met, hroute, hmet⟩ := ih h
    exact ⟨met, .up ⟨entries, passable hdir hsearch⟩ hroute, hmet⟩
  | case6 => simp at h
  | case7 => simp at h
  | case8 => simp at h
  | case9 want links place name rest entries access hdir _ _ _ _ target _ hlink hstop =>
    simp [← hfollow] at hstop
  | case10 => simp at h
  | case11 => simp at h
  | case12 want place name rest entries access hdir hsearch hdot hdotDot hlen target shown hlink _ links hread _ _ ih =>
    obtain ⟨met, hroute, hmet⟩ := ih (by simpa using h)
    obtain ⟨mid, inner, outer, hinner, houter, rfl⟩ := hroute.of_append
    have hholds : disk.Holds place name (.link target shown) :=
      ⟨⟨hdot, hdotDot⟩, ⟨entries, passable hdir hsearch, hlink⟩, by omega⟩
    exact ⟨_, .link hholds (Bool.not_eq_false _ |>.mp hread) hinner houter, Nat.succ_le_succ hmet⟩
  | case13 want links place name rest entries access hdir hsearch hdot hdotDot hlen below hlink hbelow ih =>
    obtain ⟨met, hroute, hmet⟩ := ih h
    have he : below.isLink = false := by
      cases below with
      | link target access => exact absurd rfl (hlink target access)
      | _ => rfl
    have hholds : disk.Holds place name below :=
      ⟨⟨hdot, hdotDot⟩, ⟨entries, passable hdir hsearch, hbelow⟩, by omega⟩
    exact ⟨met, .down hholds he hroute, hmet⟩
  | case14 => simp at h

/-- **A look-up goes by the route that there is**, if it may follow as many links as are met. What the path
asks for at its end is not changed on the way. -/
theorem Route.walk_eq {want : Bool} {links : Nat} (h : disk.Route place names met q)
    (hlinks : met.length ≤ links) (more : List Bytes) : ∃ want', (more ≠ [] → want' = want) ∧
      walk disk true want links place (names ++ more) = walk disk true want' (links - met.length) q more := by
  induction h generalizing want links more with
  | here => exact ⟨want, fun _ => rfl, rfl⟩
  | @stay place rest q met hopen _ ih =>
    obtain ⟨entries, access, hdir, hsearch⟩ := hopen
    obtain ⟨want', hwant, hwalk⟩ := @ih want links hlinks more
    refine ⟨want', hwant, ?_⟩
    rw [← hwalk, List.cons_append, walk, hdir]
    simp [hsearch]
  | @up place rest q met hopen _ ih =>
    obtain ⟨entries, access, hdir, hsearch⟩ := hopen
    obtain ⟨want', hwant, hwalk⟩ := @ih want links hlinks more
    refine ⟨want', hwant, ?_⟩
    rw [← hwalk, List.cons_append, walk, hdir]
    simp [hsearch, dot, dotDot]
  | down hholds he _ ih =>
    obtain ⟨want', hwant, hwalk⟩ := @ih want links hlinks more
    exact ⟨want', hwant, by rw [← hwalk, List.cons_append, hholds.walk_eq he]⟩
  | @link place rest mid q name target access inner outer hholds hread _ _ ihInner ihOuter =>
    simp only [List.cons_append, List.length_cons, List.length_append] at hlinks
    obtain ⟨links, rfl⟩ : ∃ n, links = n + 1 := Nat.exists_eq_succ_of_ne_zero (by omega)
    -- The names of the target come first, with all that is left after them.
    obtain ⟨want₁, hwant₁, hwalk₁⟩ :=
      @ihInner (want || ((rest ++ more).isEmpty && endsWithSlash target)) links (by omega) (rest ++ more)
    obtain ⟨want₂, hwant₂, hwalk₂⟩ := @ihOuter want₁ (links - inner.length) (by omega) more
    refine ⟨want₂, fun hne => ?_, ?_⟩
    · have hrest : rest ++ more ≠ [] := by simp [hne]
      rw [hwant₂ hne, hwant₁ hrest]
      simp [hne]
    · obtain ⟨entries, ⟨_, hdir, hsearch⟩, hfind⟩ := hholds.listed
      have hleft : links + 1 - ((place ++ [name]) :: inner ++ outer).length =
          links - inner.length - outer.length := by
        simp only [List.cons_append, List.length_cons, List.length_append]
        omega
      rw [hleft, ← hwalk₂, ← hwalk₁, List.cons_append, walk, hdir]
      simp only [hsearch, hread, Bool.true_eq_false, Bool.false_eq_true, if_false, if_neg hholds.ne_dot,
        if_neg hholds.ne_dotDot, if_neg (Nat.not_lt.2 hholds.short), hfind, Bool.not_true, Bool.and_false,
        Bool.false_and]

/-! ## Links inside links -/

/-- A link leads to a place, and some links are met inside it. -/
def Resolves (disk : Disk) (link : List Bytes) (inner : List (List Bytes)) (q : List Bytes) : Prop :=
  ∃ place name target access, link = place ++ [name] ∧ disk.Holds place name (.link target access) ∧
    disk.Route (if isRooted target then [] else place) (pathNames target) inner q

theorem Resolves.unique {link : List Bytes} {inner inner' : List (List Bytes)} {q' : List Bytes}
    (h : disk.Resolves link inner q) (h' : disk.Resolves link inner' q') : inner = inner' ∧ q = q' := by
  obtain ⟨place, name, target, _, rfl, hholds, hroute⟩ := h
  obtain ⟨place', name', target', _, hlink, hholds', hroute'⟩ := h'
  obtain ⟨rfl, hname⟩ := List.append_inj' hlink rfl
  obtain rfl := List.singleton_inj.1 hname
  obtain ⟨rfl, _⟩ := Entry.link.inj (hholds.unique hholds')
  exact hroute.unique hroute'

theorem Resolves.mem_linkPlaces {link : List Bytes} {inner : List (List Bytes)}
    (h : disk.Resolves link inner q) : link ∈ disk.root.linkPlaces := by
  obtain ⟨place, name, target, _, rfl, hholds, _⟩ := h
  exact Entry.mem_linkPlaces hholds.at?

/-- Links that are being followed, one inside the other: inside each of them at least `bound` links are met. -/
structure Pending (disk : Disk) (links : List (List Bytes)) (bound : Nat) : Prop where
  nodup : links.Nodup
  resolves : ∀ link ∈ links, ∃ inner q, disk.Resolves link inner q ∧ bound ≤ inner.length

namespace Pending

variable {links inner : List (List Bytes)} {link : List Bytes} {bound : Nat}

theorem mono {bound' : Nat} (h : disk.Pending links bound) (hle : bound' ≤ bound) :
    disk.Pending links bound' where
  nodup := h.nodup
  resolves link hlink := by
    obtain ⟨inner, q, hresolves, hbound⟩ := h.resolves link hlink
    exact ⟨inner, q, hresolves, hle.trans hbound⟩

/-- **A link is not met while it is being followed.** Fewer links are met inside it than inside any of those, and a
link leads on in one way only. -/
theorem notMem (h : disk.Pending links bound) (hresolves : disk.Resolves link inner q)
    (hlt : inner.length < bound) : link ∉ links := by
  intro hmem
  obtain ⟨inner', q', hresolves', hbound⟩ := h.resolves link hmem
  -- The links inside a link are always the same, so it cannot be found among fewer of them.
  obtain ⟨rfl, _⟩ := hresolves.unique hresolves'
  omega

theorem cons (h : disk.Pending links bound) (hresolves : disk.Resolves link inner q)
    (hlt : inner.length < bound) : disk.Pending (link :: links) inner.length where
  nodup := List.nodup_cons.2 ⟨h.notMem hresolves hlt, h.nodup⟩
  resolves := by
    rintro other (_ | ⟨_, hmem⟩)
    · exact ⟨inner, q, hresolves, Nat.le_refl _⟩
    · exact (h.mono hlt.le).resolves other hmem

/-- There are no more links inside one another than there are on the disk. -/
theorem length_le (h : disk.Pending links bound) : links.length ≤ disk.root.linkCount := by
  rw [← Entry.length_linkPlaces]
  refine (List.subperm_of_subset h.nodup fun link hlink => ?_).length_le
  obtain ⟨inner, q, hresolves, _⟩ := h.resolves link hlink
  exact hresolves.mem_linkPlaces

end Pending

end Disk

end HeaderAtlas
