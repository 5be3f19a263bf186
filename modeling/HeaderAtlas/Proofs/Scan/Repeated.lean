import HeaderAtlas.Proofs.Atlas.History
import HeaderAtlas.Proofs.Atlas.Union
import HeaderAtlas.Proofs.Scan.Exact
/-!
# Scans into one atlas

A scan looks at the disk and not at the atlas. So a scan that comes to its end does so for every atlas, and what
it adds is the same for all of them (`Scan.exists_run_adds`). Adding twice is adding once, and of two things that are
added either may come first; that is all there is to scanning twice and to scanning with several parameters.
-/

set_option autoImplicit false

namespace HeaderAtlas

namespace Scan

variable {host : Host} {p q : Params} {a : Atlas} {s t : Stats}

/-- **A scan that comes to its end** does so for every atlas, with the same statistics, and adds the same facts. -/
theorem exists_run_adds (ha : a.WellFormed) (hd : a.Decoded) (hp : p.Decoded)
    (h : (run host p a).result = .ok s) :
    ∃ new, ∀ b : Atlas, b.WellFormed → b.Decoded →
      (run host p b).result = .ok s ∧ Atlas.Adds b (run host p b).atlas new := by
  obtain ⟨r, top, hr, _, _, hfailure, hrequests⟩ := requests_of_run_eq_ok hp h
  have hfits := fun q => (hrequests q).1
  obtain rfl := Except.ok.inj (h.symm.trans (run_adds hr hfailure hfits ha hd).1)
  exact ⟨_, fun b hb hdb => run_adds hr hfailure hfits hb hdb⟩

/-- **Scans into one atlas.** Take any well-formed atlas with decoded names, and two scans into it that come to their
end. A scan only adds: every node keeps its number, name and parent, its children and its edges. The same scan once
more changes nothing at all, and counts the same. After the other scan it still comes to its end, and whichever of
the two comes first, the text is the same in every style. -/
theorem run_repeated (ha : a.WellFormed) (hd : a.Decoded) (hp : p.Decoded) (hq : q.Decoded)
    (h : (run host p a).result = .ok s) (h' : (run host q a).result = .ok t) :
    a.Extends (run host p a).atlas ∧
      ((run host p (run host p a).atlas).atlas = (run host p a).atlas ∧
        (run host p (run host p a).atlas).result = .ok s) ∧
      (run host q (run host p a).atlas).result = .ok t ∧ (run host p (run host q a).atlas).result = .ok s ∧
      ∀ style, (run host q (run host p a).atlas).atlas.dump style =
        (run host p (run host q a).atlas).atlas.dump style := by
  obtain ⟨new, hnew⟩ := exists_run_adds ha hd hp h
  obtain ⟨new', hnew'⟩ := exists_run_adds ha hd hq h'
  obtain ⟨_, hadds⟩ := hnew a ha hd
  obtain ⟨_, hadds'⟩ := hnew' a ha hd
  obtain ⟨hagain, haddsAgain⟩ := hnew _ hadds.wellFormed hadds.decoded
  obtain ⟨hsecond, haddsSecond⟩ := hnew' _ hadds.wellFormed hadds.decoded
  obtain ⟨hsecond', haddsSecond'⟩ := hnew _ hadds'.wellFormed hadds'.decoded
  exact ⟨hadds.keeps, ⟨hadds.again haddsAgain, hagain⟩, hsecond, hsecond',
    hadds.dump_comm haddsSecond hadds' haddsSecond'⟩

/-- An atlas with a node that a scan of `/s` would make too, and one below it. -/
def earlierAtlas : Atlas := (Operation.addPath (.own Atlas.root) "b/old" Path.root).apply Atlas.empty

/-- Scans the whole disk, without dependents. -/
def wholeParams : Params := { sampleParams with scanDir := "/", includeDirs := ["/s"], reverse := false }

/-- Two scans that overlap: the one of `/s` names its files `a` and `b`, the one of the whole disk `s/a` and `s/b`, and
the include of one file by the other is seen by both. -/
theorem run_repeated_overlap :
    let host := sampleHost (Text.key "#include\"b\"")
    earlierAtlas.Extends (run host sampleParams earlierAtlas).atlas ∧
      ((run host sampleParams (run host sampleParams earlierAtlas).atlas).atlas =
          (run host sampleParams earlierAtlas).atlas ∧
        (run host sampleParams (run host sampleParams earlierAtlas).atlas).result = .ok ⟨1, 2, 2, 1, 0⟩) ∧
      (run host wholeParams (run host sampleParams earlierAtlas).atlas).result = .ok ⟨2, 3, 3, 1, 0⟩ ∧
      (run host sampleParams (run host wholeParams earlierAtlas).atlas).result = .ok ⟨1, 2, 2, 1, 0⟩ ∧
      ∀ style, (run host wholeParams (run host sampleParams earlierAtlas).atlas).atlas.dump style =
        (run host sampleParams (run host wholeParams earlierAtlas).atlas).atlas.dump style := by
  have hbuilt : Built earlierAtlas := .step _ .empty (by decide)
  have hdecoded : earlierAtlas.Decoded := Atlas.Surrogateless.decoded (by decide +kernel)
  have h : (run (sampleHost (Text.key "#include\"b\"")) sampleParams earlierAtlas).result =
      .ok ⟨1, 2, 2, 1, 0⟩ := by cbv
  have h' : (run (sampleHost (Text.key "#include\"b\"")) wholeParams earlierAtlas).result =
      .ok ⟨2, 3, 3, 1, 0⟩ := by cbv
  exact run_repeated hbuilt.wellFormed hdecoded ⟨by decide, by decide, by decide⟩ ⟨by decide, by decide, by decide⟩
    h h'

end Scan

end HeaderAtlas
