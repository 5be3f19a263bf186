import HeaderAtlas.Proofs.Atlas.Mirror
import HeaderAtlas.Scan.Basic
/-!
# Scans with and without dependents

A scan may record each include at both of its ends, or only at the file that has it. The two scans of a file system
ask for the same nodes and the same dependencies in the same order, so they fail together and number the nodes alike,
and what a scan without dependents leaves out can be made afterwards. That holds of what a scan leaves behind when it
fails, too.

The walk does not know about the choice. It is made where a survey is turned into requests, so both scans have the
same survey and differ in their requests only, and there in a regular way: each dependency is followed by its
dependent, or is not (`Atlas.Paired`). What paired requests do to an atlas is shown once and for all in
`Atlas.performAll_paired`; here it remains to show that the requests of a survey are paired.
-/

set_option autoImplicit false

namespace HeaderAtlas

namespace Scan

open Atlas (Paired)

/-! ## Requests -/

/-- An include that is tracked asks for an edge, and with dependents for the edge back right after it. Any other asks
for nothing. -/
theorem Inclusion.paired (file : List Text) (i : Inclusion) :
    Paired (i.requests true file) (i.requests false file) := by
  unfold Inclusion.requests
  split
  · exact .edge _ _ .nil
  · exact .nil

theorem FileVisit.paired (names : List Text) (f : FileVisit) :
    Paired (f.requests true names) (f.requests false names) :=
  .node _ (Paired.flatMap _ fun i _ => i.paired _)

/-- Directories ask for nodes, which are the same on both sides, and come before the files. -/
theorem Visit.paired (v : Visit) : Paired (v.requests true) (v.requests false) := by
  have hdirectories (l : List Text) : Paired (l.map fun name => .node (v.names ++ [name]))
      (l.map fun name => .node (v.names ++ [name])) := by
    induction l with
    | nil => exact .nil
    | cons name rest ih => exact .node _ ih
  have hfiles := Paired.flatMap v.files fun f _ => f.paired v.names
  exact .node _ ((hdirectories v.directories).append hfiles)

theorem Survey.paired (s : Survey) : Paired (s.requests true) (s.requests false) :=
  Paired.flatMap _ fun v _ => v.paired

/-! ## Outcomes -/

/-- What a scan that records both ends leaves behind, next to one that does not. -/
structure Agree (both forward : Outcome) : Prop where
  wellFormed : both.atlas.WellFormed
  mirrored : both.atlas.Mirrored
  atlas : forward.atlas = both.atlas.forwardOnly
  result : forward.result = both.result

/-- A survey whose requests are put into an empty atlas, the last ones perhaps not. Where the atlas refuses a request,
both scans stop at the same one; where the walk failed, both have performed all that it found. -/
theorem Survey.agree_outcome (s : Survey) (path : Text) :
    Agree (s.outcome path true Atlas.empty) (s.outcome path false Atlas.empty) := by
  have hmirrors := Atlas.performAll_paired s.paired Atlas.wellFormed_empty Atlas.mirrored_empty
  rw [Atlas.forwardOnly_empty] at hmirrors
  obtain ⟨hgrows, hmirrored, hforward⟩ := hmirrors
  unfold Survey.outcome
  rw [hforward]
  -- The three ways in which an outcome comes about: a refused request, a walk that failed, and neither.
  rcases h : Atlas.empty.performAll (s.requests true) with ⟨a, e | _⟩
  · rw [h] at hgrows hmirrored
    exact ⟨hgrows.wellFormed, hmirrored, rfl, rfl⟩
  · rw [h] at hgrows hmirrored
    dsimp only
    cases s.failure with
    | some e => exact ⟨hgrows.wellFormed, hmirrored, rfl, rfl⟩
    | none => exact ⟨hgrows.wellFormed, hmirrored, rfl, rfl⟩

/-- Without a scope neither scan does anything. -/
theorem agree_runIn (scope : Except Failure Scope) :
    Agree (runIn scope true Atlas.empty) (runIn scope false Atlas.empty) := by
  cases scope with
  | error e =>
    exact ⟨Atlas.wellFormed_empty, Atlas.mirrored_empty, Atlas.forwardOnly_empty.symm, rfl⟩
  | ok s => exact s.surveyTop.agree_outcome _

/-- **Edges agree in both directions.** A scan with dependents records every edge at both of its ends,
and one without has no dependents. The two end alike, and making the dependents afterwards turns the
atlas of the second into that of the first, where nothing is missing. -/
theorem run_dependents_agree (host : Host) (p : Params) :
    let both := run host { p with reverse := true } Atlas.empty
    let forward := run host { p with reverse := false } Atlas.empty
    (∀ n m, m ∈ both.atlas.dependencies n ↔ n ∈ both.atlas.dependents m) ∧
      (∀ n, forward.atlas.dependents n = []) ∧
      forward.atlas.reconstruct.1 = both.atlas ∧ forward.result = both.result ∧
      both.atlas.reconstruct = (both.atlas, 0) := by
  intro both forward
  -- The flag is no part of what a scan looks at, so the scope is the same.
  obtain ⟨hwf, hmirrored, hatlas, hresult⟩ : Agree both forward := agree_runIn (p.scope host)
  refine ⟨hmirrored, ?_, ?_, hresult, hmirrored.reconstruct hwf⟩
  · intro n
    rw [hatlas, Atlas.dependents_forwardOnly]
  · rw [hatlas, Atlas.reconstruct_forwardOnly hwf hmirrored]

end Scan

end HeaderAtlas
