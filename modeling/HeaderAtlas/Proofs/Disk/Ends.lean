import HeaderAtlas.Proofs.Disk.Beneath
import Mathlib.Data.List.Permutation
import Mathlib.Order.WellFounded
/-!
# Peeling ends

Peeling a path is a walk over the names of the path. A link that is met is replaced by the names of its target, so the
names that are still to come may become more and more: behind a link `deep` to `deep/x` there is one name more each
time, and the walk as such goes on for ever (`Host.Step`).

Peeling ends because it follows forty links and no more. With each step either the number of links that may still be
followed or, if that stays, the number of names becomes less (`Host.wellFounded_within`). What peeling comes to is the
same all along the walk (`Host.outcome_eq_of_steps`), and it shows where the walk ends: with no name left, at the link
that is one too many, or at a link that does not show its target.
-/

set_option autoImplicit false

namespace HeaderAtlas

open HeaderAtlas.Path

namespace Host

/-! ## The walk -/

/-- How far a walk has come: the path that was reached, the names that are still to be followed, and the number of
links that were followed. -/
structure Peeling where
  current : Text
  pending : List Text
  followed : Nat
  deriving DecidableEq

namespace Peeling

/-- Where the walk over a path begins. -/
def start (base path : Text) : Peeling := ⟨if isAbsolute path then Path.root else base, components path, 0⟩

/-- The next name is that of a link, whose path is given, with the target that it shows or why it shows none. -/
def Faces (host : Host) (s : Peeling) (link : Text) (found : Except Disk.Fault Text) : Prop :=
  ∃ name rest, s.pending = name :: rest ∧ name ≠ here ∧ name ≠ up ∧ link = Path.join s.current name ∧
    host.linkTarget? link = some found

/-- The walk cannot go on, limit or not: the next name is a link that does not show its target. -/
def Stuck (host : Host) (s : Peeling) : Prop := ∃ link f, s.Faces host link (.error f)

end Peeling

/-- The walk goes on by one name. There is no limit to the number of links. -/
inductive Step (host : Host) : Peeling → Peeling → Prop
  | stay {current : Text} {rest : List Text} {n : Nat} : Step host ⟨current, here :: rest, n⟩ ⟨current, rest, n⟩
  | up {current : Text} {rest : List Text} {n : Nat} :
      Step host ⟨current, Path.up :: rest, n⟩ ⟨parent current, rest, n⟩
  | down {current name : Text} {rest : List Text} {n : Nat} (hhere : name ≠ here) (hup : name ≠ Path.up)
      (hlink : host.linkTarget? (join current name) = none) :
      Step host ⟨current, name :: rest, n⟩ ⟨join current name, rest, n⟩
  | link {current name target : Text} {rest : List Text} {n : Nat} (hhere : name ≠ here) (hup : name ≠ Path.up)
      (hlink : host.linkTarget? (join current name) = some (.ok target)) :
      Step host ⟨current, name :: rest, n⟩
        ⟨if isAbsolute target then Path.root else current, components target ++ rest, n + 1⟩

/-- The walk goes on by any number of names. -/
def Steps (host : Host) : Peeling → Peeling → Prop := Relation.ReflTransGen host.Step

variable {host : Host} {s t : Peeling} {link : Text}

/-- **As long as there are names the walk goes on**, unless it is stuck, and a link is counted. -/
theorem exists_step (h : s.pending ≠ []) : s.Stuck host ∨
    ∃ t, host.Step s t ∧
      (t.followed = s.followed ∨ t.followed = s.followed + 1 ∧ ∃ link found, s.Faces host link found) := by
  obtain ⟨current, pending, n⟩ := s
  obtain ⟨name, rest, rfl⟩ := List.exists_cons_of_ne_nil h
  by_cases hhere : name = here
  · subst hhere
    exact .inr ⟨_, .stay, .inl rfl⟩
  by_cases hup : name = up
  · subst hup
    exact .inr ⟨_, .up, .inl rfl⟩
  rcases hlink : host.linkTarget? (Path.join current name) with _ | f | target
  · exact .inr ⟨_, .down hhere hup hlink, .inl rfl⟩
  · exact .inl ⟨_, f, name, rest, rfl, hhere, hup, rfl, hlink⟩
  · exact .inr ⟨_, .link hhere hup hlink, .inr ⟨rfl, _, _, name, rest, rfl, hhere, hup, rfl, hlink⟩⟩

theorem Step.followed_le (h : host.Step s t) : s.followed ≤ t.followed := by
  cases h with
  | link => exact Nat.le_succ _
  | _ => exact Nat.le_refl _

theorem Steps.followed_le (h : host.Steps s t) : s.followed ≤ t.followed := by
  induction h with
  | refl => exact Nat.le_refl _
  | tail _ hstep ih => exact Nat.le_trans ih hstep.followed_le

/-! ## The walk within the limit -/

/-- The walk goes on by one name to a state in which no more links were followed than may be. -/
def Within (host : Host) (t s : Peeling) : Prop := host.Step s t ∧ t.followed ≤ maxPeeled

/-- **Within the limit no walk goes on for ever.** A link leaves fewer links to be followed, however many names its
target has, and any other name is one name less. -/
theorem wellFounded_within (host : Host) : WellFounded host.Within := by
  let measure (s : Peeling) : Nat × Nat := (maxPeeled - s.followed, s.pending.length)
  refine Subrelation.wf ?_ (InvImage.wf measure (WellFounded.prod_lex Nat.lt_wfRel.wf Nat.lt_wfRel.wf))
  rintro t s ⟨hstep, hlimit⟩
  have hname {n a b : Nat} (h : a < b) : Prod.Lex (· < ·) (· < ·) (maxPeeled - n, a) (maxPeeled - n, b) := .right _ h
  cases hstep with
  | stay => exact hname (Nat.lt_succ_self _)
  | up => exact hname (Nat.lt_succ_self _)
  | down => exact hname (Nat.lt_succ_self _)
  | @link _ _ _ _ n =>
    have hless : maxPeeled - (n + 1) < maxPeeled - n := Nat.sub_lt_sub_left hlimit (Nat.lt_succ_self n)
    exact Prod.Lex.left _ _ hless

/-- The walk is over: no name is left, or the next one is a link and no more links may be followed, or it is
stuck before that. -/
def Peeling.Over (host : Host) (s : Peeling) : Prop :=
  s.pending = [] ∨ (s.followed = maxPeeled ∧ ∃ link found, s.Faces host link found) ∨
    s.followed < maxPeeled ∧ s.Stuck host

/-- **Every walk comes to its end** within the limit. -/
theorem exists_over (hs : s.followed ≤ maxPeeled) :
    ∃ t, host.Steps s t ∧ t.followed ≤ maxPeeled ∧ t.Over host := by
  induction s using (wellFounded_within host).induction with
  | h s ih =>
    by_cases hpending : s.pending = []
    · exact ⟨s, .refl, hs, .inl hpending⟩
    obtain ⟨link, f, hfaces⟩ | ⟨next, hstep, hcount⟩ := @exists_step host s hpending
    · rcases hs.lt_or_eq with hless | hfull
      · exact ⟨s, .refl, hs, .inr (.inr ⟨hless, link, f, hfaces⟩)⟩
      · exact ⟨s, .refl, hs, .inr (.inl ⟨hfull, link, _, hfaces⟩)⟩
    by_cases hlimit : next.followed ≤ maxPeeled
    · obtain ⟨t, hsteps, ht, hover⟩ := ih next ⟨hstep, hlimit⟩ hlimit
      exact ⟨t, .head hstep hsteps, ht, hover⟩
    · -- One name takes the walk over the limit, so it is a link and all links have been followed.
      obtain hsame | ⟨hnext, hfaces⟩ := hcount
      · omega
      · exact ⟨s, .refl, hs, .inr (.inl ⟨by omega, hfaces⟩)⟩

/-! ## The outcome -/

/-- What peeling comes to from a state of the walk on. -/
def outcome (host : Host) (s : Peeling) : Except Snag Text :=
  host.peelFrom (maxPeeled - s.followed) s.current s.pending

theorem outcome_start (host : Host) (base path : Text) :
    host.outcome (.start base path) = host.peel base path := rfl

/-- One step does not change the outcome. -/
theorem outcome_eq_of_step (h : host.Step s t) (hlimit : t.followed ≤ maxPeeled) :
    host.outcome s = host.outcome t := by
  cases h with
  | stay => rw [outcome, peelFrom, if_pos rfl, outcome]
  | up => rw [outcome, peelFrom, if_neg (by decide), if_pos rfl, outcome]
  | down hhere hup hlink => rw [outcome, peelFrom, if_neg hhere, if_neg hup, hlink, outcome]
  | @link current name target rest n hhere hup hlink =>
    change n + 1 ≤ maxPeeled at hlimit
    have hleft : maxPeeled - n = maxPeeled - (n + 1) + 1 := by omega
    rw [outcome]
    simp only [hleft]
    rw [peelFrom, if_neg hhere, if_neg hup, hlink, outcome]

theorem outcome_eq_of_steps (h : host.Steps s t) (hlimit : t.followed ≤ maxPeeled) :
    host.outcome s = host.outcome t := by
  induction h using Relation.ReflTransGen.head_induction_on with
  | refl => rfl
  | head hstep hsteps ih =>
    exact (outcome_eq_of_step hstep (Nat.le_trans (Steps.followed_le hsteps) hlimit)).trans ih

theorem outcome_of_nil (h : s.pending = []) : host.outcome s = .ok s.current := by rw [outcome, h, peelFrom]

theorem outcome_of_faces {found : Except Disk.Fault Text} (hlimit : s.followed = maxPeeled)
    (h : s.Faces host link found) : host.outcome s = .error (.tooMany link) := by
  obtain ⟨name, rest, hpending, hhere, hup, rfl, hlink⟩ := h
  rw [outcome, hpending, hlimit, Nat.sub_self, peelFrom, if_neg hhere, if_neg hup, hlink]

theorem outcome_of_stuck {f : Disk.Fault} (hlimit : s.followed < maxPeeled) (h : s.Faces host link (.error f)) :
    host.outcome s = .error (.unreadable link f) := by
  obtain ⟨name, rest, hpending, hhere, hup, rfl, hlink⟩ := h
  have hleft : maxPeeled - s.followed = maxPeeled - (s.followed + 1) + 1 := by omega
  rw [outcome, hpending, hleft, peelFrom, if_neg hhere, if_neg hup, hlink]

/-- **The outcome tells how the walk was over.** -/
theorem exists_outcome (host : Host) (base path : Text) : ∃ s, host.Steps (.start base path) s ∧
    ((s.followed ≤ maxPeeled ∧ s.pending = [] ∧ host.peel base path = .ok s.current) ∨
      (∃ link found, s.followed = maxPeeled ∧ s.Faces host link found ∧
        host.peel base path = .error (.tooMany link)) ∨
      ∃ link f, s.followed < maxPeeled ∧ s.Faces host link (.error f) ∧
        host.peel base path = .error (.unreadable link f)) := by
  obtain ⟨s, hsteps, hlimit, hover⟩ := @exists_over host (.start base path) (Nat.zero_le _)
  have houtcome : host.peel base path = host.outcome s := by
    rw [← outcome_start, outcome_eq_of_steps hsteps hlimit]
  refine ⟨s, hsteps, ?_⟩
  rw [houtcome]
  rcases hover with hnil | ⟨hfull, link, found, hfaces⟩ | ⟨hless, link, f, hfaces⟩
  · exact .inl ⟨hlimit, hnil, outcome_of_nil hnil⟩
  · exact .inr (.inl ⟨link, found, hfull, hfaces, outcome_of_faces hfull hfaces⟩)
  · exact .inr (.inr ⟨link, f, hless, hfaces, outcome_of_stuck hless hfaces⟩)

/-! ## What the walk keeps -/

/-- The root is no link: a path that ends with a slash asks for a directory. -/
theorem linkTarget?_anchor {start : Text} (h : IsAnchor start) : host.linkTarget? start = none := by
  have habs : isAbsolute start = true := by
    have := h.isAbsolute []
    rwa [List.append_nil] at this
  have hnames : Disk.pathNames start.key = [] ∧ Disk.endsWithSlash start.key = true := by
    rcases h with rfl | rfl <;> decide
  unfold linkTarget?
  split
  · next target access hentry =>
    unfold Host.entry? at hentry
    split at hentry
    · next place e hfound =>
      obtain rfl := Option.some.inj hentry
      obtain ⟨_, _, slash, hslash, hwalk⟩ := (entry_eq_ok habs).1 hfound
      rw [hnames.1, hnames.2, Disk.walk] at hwalk
      split at hwalk
      · simp at hwalk
      · obtain ⟨_, rfl, rfl⟩ := Disk.Target.found.inj (Except.ok.inj hwalk)
        simp [Entry.isDirectory] at hslash
    · simp at hentry
  · rfl

/-- The path that was reached is normal and has no link in it, its anchor is one slash or that of the base, and the
names that are still to come are components. -/
structure Peeling.Free (host : Host) (base : Text) (s : Peeling) : Prop where
  normal : IsNormal s.current
  linkless : host.Linkless s.current
  anchored : anchor s.current = [slash] ∨ anchor s.current = anchor base
  names : ∀ n ∈ s.pending, n ≠ [] ∧ slash ∉ n

variable {base path : Text}

theorem free_root {names : List Text} {n : Nat} (h : ∀ m ∈ names, m ≠ [] ∧ slash ∉ m) :
    Peeling.Free host base ⟨Path.root, names, n⟩ :=
  ⟨isNormal_root, LinkFree.root.free, .inl (show anchor Path.root = [slash] by decide), h⟩

theorem free_start (hbase : IsNormal base) (hfree : host.Linkless base) : (Peeling.start base path).Free host base := by
  have hnames : ∀ n ∈ components path, n ≠ [] ∧ slash ∉ n := fun n hn => Segments.mem_split hn
  unfold Peeling.start
  split
  · exact free_root hnames
  · exact ⟨hbase, hfree, .inr rfl, hnames⟩

/-- **A step keeps to paths without links.** A link is never entered: its target is followed from where the link lies,
or from the root. -/
theorem Step.free (h : host.Step s t) (hs : s.Free host base) : t.Free host base := by
  obtain ⟨hnormal, hlinkless, hanchor, hnames⟩ := hs
  cases h with
  | stay => exact ⟨hnormal, hlinkless, hanchor, (List.forall_mem_cons.1 hnames).2⟩
  | up =>
    obtain ⟨hparent, hsame⟩ := hnormal.parent
    exact ⟨hparent, hlinkless.parent hnormal, hsame ▸ hanchor, (List.forall_mem_cons.1 hnames).2⟩
  | down hhere hup hlink =>
    obtain ⟨⟨hne, hslash⟩, hrest⟩ := List.forall_mem_cons.1 hnames
    have hproper : Proper _ := ⟨hne, hslash, hhere, hup⟩
    obtain ⟨hjoin, hsame⟩ := hnormal.join hproper
    exact ⟨hjoin, hlinkless.join hnormal hproper hlink, hsame ▸ hanchor, hrest⟩
  | @link _ _ target rest _ =>
    have hall : ∀ n ∈ components target ++ rest, n ≠ [] ∧ slash ∉ n :=
      List.forall_mem_append.2 ⟨fun n hn => Segments.mem_split hn, (List.forall_mem_cons.1 hnames).2⟩
    split
    · exact free_root hall
    · exact ⟨hnormal, hlinkless, hanchor, hall⟩

theorem Steps.free (h : host.Steps s t) (hs : s.Free host base) : t.Free host base := by
  induction h with
  | refl => exact hs
  | tail _ hstep ih => exact hstep.free ih

/-! ## Peeling -/

/-- **Peeling gives a path** exactly if the walk gets through all names with no more links than may be followed. -/
theorem peel_eq_ok_iff {file : Text} : host.peel base path = .ok file ↔
    ∃ n ≤ maxPeeled, host.Steps (.start base path) ⟨file, [], n⟩ := by
  constructor
  · intro hpeel
    obtain ⟨⟨current, pending, n⟩, hsteps, ⟨hlimit, rfl, heq⟩ | ⟨_, _, _, _, heq⟩ | ⟨_, _, _, _, heq⟩⟩ :=
      exists_outcome host base path
    · obtain rfl := Except.ok.inj (heq.symm.trans hpeel)
      exact ⟨n, hlimit, hsteps⟩
    · simp [heq] at hpeel
    · simp [heq] at hpeel
  · rintro ⟨n, hlimit, hsteps⟩
    exact (outcome_eq_of_steps hsteps hlimit).trans (outcome_of_nil rfl)

/-- **Peeling gives up** exactly if the walk meets a link when no more may be followed. -/
theorem peel_eq_tooMany_iff : host.peel base path = .error (.tooMany link) ↔
    ∃ s found, host.Steps (.start base path) s ∧ s.followed = maxPeeled ∧ s.Faces host link found := by
  constructor
  · intro hpeel
    obtain ⟨s, hsteps, ⟨_, _, heq⟩ | ⟨other, found, hfull, hfaces, heq⟩ | ⟨_, _, _, _, heq⟩⟩ :=
      exists_outcome host base path
    · simp [heq] at hpeel
    · obtain rfl := Snag.tooMany.inj (Except.error.inj (heq.symm.trans hpeel))
      exact ⟨s, found, hsteps, hfull, hfaces⟩
    · simp [heq] at hpeel
  · rintro ⟨s, found, hsteps, hfull, hfaces⟩
    exact (outcome_eq_of_steps hsteps hfull.le).trans (outcome_of_faces hfull hfaces)

/-- **Peeling is stuck** exactly if the walk meets a link that might be followed and does not show its target. -/
theorem peel_eq_unreadable_iff {f : Disk.Fault} : host.peel base path = .error (.unreadable link f) ↔
    ∃ s, host.Steps (.start base path) s ∧ s.followed < maxPeeled ∧ s.Faces host link (.error f) := by
  constructor
  · intro hpeel
    obtain ⟨s, hsteps, ⟨_, _, heq⟩ | ⟨_, _, _, _, heq⟩ | ⟨other, g, hless, hfaces, heq⟩⟩ :=
      exists_outcome host base path
    · simp [heq] at hpeel
    · simp [heq] at hpeel
    · obtain ⟨rfl, rfl⟩ := Snag.unreadable.inj (Except.error.inj (heq.symm.trans hpeel))
      exact ⟨s, hsteps, hless, hfaces⟩
  · rintro ⟨s, hsteps, hless, hfaces⟩
    exact (outcome_eq_of_steps hsteps hless.le).trans (outcome_of_stuck hless hfaces)

/-- **Peeling ends.** No walk within the limit of forty links goes on for ever. Peeling gives a path exactly if the walk
gets through all names with forty links or fewer, which is then the path that the walk has reached. It gives up exactly
if the walk meets one more link after forty, and it is stuck exactly if the walk meets a link before that which does not
show its target. What it gives from a normal path without links is such a path; it begins with one slash, or as the path
did that it was peeled from. -/
theorem peel_ends (host : Host) (base path : Text) :
    (¬ ∃ run : Nat → Peeling, run 0 = .start base path ∧
      ∀ i, host.Step (run i) (run (i + 1)) ∧ (run (i + 1)).followed ≤ maxPeeled) ∧
    (∀ file, host.peel base path = .ok file ↔ ∃ n ≤ maxPeeled, host.Steps (.start base path) ⟨file, [], n⟩) ∧
    (∀ link, host.peel base path = .error (.tooMany link) ↔
      ∃ s found, host.Steps (.start base path) s ∧ s.followed = maxPeeled ∧ s.Faces host link found) ∧
    (∀ link f, host.peel base path = .error (.unreadable link f) ↔
      ∃ s, host.Steps (.start base path) s ∧ s.followed < maxPeeled ∧ s.Faces host link (.error f)) ∧
    (IsNormal base → host.Linkless base → ∀ file, host.peel base path = .ok file →
      isAbsolute file = true ∧ IsNormal file ∧ (anchor file = [slash] ∨ anchor file = anchor base) ∧
      ∀ pre, pre <+: components file → host.linkTarget? (ofNames (anchor file) pre) = none) := by
  refine ⟨?_, fun file => peel_eq_ok_iff, fun link => peel_eq_tooMany_iff, fun link f => peel_eq_unreadable_iff, ?_⟩
  · rintro ⟨run, _, hrun⟩
    have : IsWellFounded Peeling host.Within := ⟨wellFounded_within host⟩
    obtain ⟨i, hi⟩ := WellFounded.not_rel_apply_succ (r := host.Within) run
    exact hi (hrun i)
  · intro hbase hfree file hpeel
    obtain ⟨n, _, hsteps⟩ := peel_eq_ok_iff.1 hpeel
    obtain ⟨hnormal, hlinkless, hanchor, _⟩ := hsteps.free (free_start hbase hfree)
    refine ⟨hnormal.isAbsolute, hnormal, hanchor, fun pre hpre => ?_⟩
    by_cases hnil : pre = []
    · rw [hnil, ofNames, Text.join, List.append_nil]
      exact linkTarget?_anchor hnormal.anchored
    · exact hlinkless pre hnil hpre

/-- The link `deep` lies behind itself, `f` leads to the file beside it by way of the directory above, and nobody may
see where `shut` leads. -/
def loopHost : Host where
  disk := ⟨.directory
    [(Text.key "d", .directory
      [(Text.key "deep", .link (Text.key "deep/x") .full), (Text.key "f", .link (Text.key "..//d/g") .full),
        (Text.key "g", .file [] .full), (Text.key "shut", .link (Text.key "g") .none)] .full)] .full⟩
  cwd := []
  env := []

/-- The link behind itself is given up after forty times, the one whose target is not shown at once, and the third one
is followed. -/
theorem peel_ends_loop :
    (loopHost.peel "/d" "deep" = .error (.tooMany "/d/deep") ∧
      ∃ s found, loopHost.Steps (.start "/d" "deep") s ∧ s.followed = 40 ∧ s.Faces loopHost "/d/deep" found) ∧
    (loopHost.peel "/d" "shut" = .error (.unreadable "/d/shut" .denied) ∧
      ∃ s, loopHost.Steps (.start "/d" "shut") s ∧ s.followed < 40 ∧ s.Faces loopHost "/d/shut" (.error .denied)) ∧
    IsNormal "/d" ∧ loopHost.Linkless "/d" ∧ loopHost.peel "/d" "f" = .ok "/d/g" ∧
      ∀ pre, pre <+: components "/d/g" → loopHost.linkTarget? (ofNames "/" pre) = none := by
  have hdown : loopHost.peel Path.root "d" = .ok "/d" := by cbv
  have hbase := (peelable_linkFree loopHost).peel LinkFree.root (by decide) hdown
  have hdeep : loopHost.peel "/d" "deep" = .error (.tooMany "/d/deep") := by cbv
  have hshut : loopHost.peel "/d" "shut" = .error (.unreadable "/d/shut" .denied) := by cbv
  have hfile : loopHost.peel "/d" "f" = .ok "/d/g" := by cbv
  obtain ⟨_, _, hgivesUp, _, _⟩ := peel_ends loopHost "/d" "deep"
  obtain ⟨_, _, _, hstuck, _⟩ := peel_ends loopHost "/d" "shut"
  obtain ⟨_, _, _, _, hkeeps⟩ := peel_ends loopHost "/d" "f"
  obtain ⟨_, _, _, hfree⟩ := hkeeps hbase.normal hbase.free "/d/g" hfile
  exact ⟨⟨hdeep, (hgivesUp "/d/deep").1 hdeep⟩, ⟨hshut, (hstuck "/d/shut" .denied).1 hshut⟩, hbase.normal, hbase.free,
    hfile, hfree⟩

/-- **A second slash at the beginning stays.** A path that begins with exactly two slashes can be normal and have
no link in it, and then what is peeled from it has an empty component between the two. -/
theorem peel_empty_component :
    IsNormal "//d" ∧ loopHost.Linkless "//d" ∧ loopHost.peel "//d" "x" = .ok "//d/x" ∧
      Text.splitOn slash "//d/x" = ["", "", "d", "x"] := by
  have hdouble : LinkFree loopHost (ofNames "//" []) :=
    linkFree_ofNames (.inr rfl) (by simp) fun pre hne hpre => absurd (List.prefix_nil.1 hpre) hne
  have hdown : loopHost.peel (ofNames "//" []) "d" = .ok "//d" := by cbv
  have hbase := (peelable_linkFree loopHost).peel hdouble (by decide) hdown
  exact ⟨hbase.normal, hbase.free, by cbv, by decide⟩

end Host

end HeaderAtlas
