import HeaderAtlas.Proofs.Scan.Resolver
import HeaderAtlas.Scan.Resolver
import Mathlib.Data.List.Infix
import Mathlib.Data.List.Permutation
/-!
# Includes do not escape

A header is any bytes at all, and a tracker follows them on the disk. Whatever they are, what it adds to
its atlas is the node of a regular file that lies in a root directory and that no link leads to; or
else it adds nothing and counts the include as dropped.
-/

set_option autoImplicit false

namespace HeaderAtlas

namespace Scan

open HeaderAtlas.Path

/-- A regular file in a root directory, with no link on the way to it. The last part says so of the disk
itself: its place is reached through plain directories alone. -/
structure Resolver.Tracks (host : Host) (r : Resolver) (file : Text) : Prop where
  isAbsolute : Path.isAbsolute file = true
  isFile : host.isFile file = true
  linkless : host.Linkless file
  beneath : ∃ root ∈ r.rootDirs, components root <+: components file
  placed : ∃ contents locked,
    host.disk.at? ((components file).map Text.key) = some (.file contents locked)

namespace Tracker

variable {host : Host} {params : Params} {r : Resolver} {a : Atlas} {t : Tracker} {i j k l : Nat}
  {dir path : Text} {d : Source.Directive}

/-! ## Drawing an include -/

theorem extends_connect (reverse : Bool) (a : Atlas) (i j : Nat) :
    a.Extends (connect reverse a i j) := by
  unfold connect
  have hforth := Atlas.Extends.addEdge a .dependency i j
  split
  · exact hforth.trans (Atlas.Extends.addEdge _ .dependent j i)
  · exact hforth

theorem mem_dependencies_connect {reverse : Bool} (hi : i < a.size) :
    l ∈ (connect reverse a i j).dependencies k ↔ l ∈ a.dependencies k ∨ (k = i ∧ l = j) := by
  unfold connect
  split
  · rw [Atlas.dependencies, Atlas.edges_addEdge_of_ne (by decide), Atlas.mem_edges_addEdge hi]
  · exact Atlas.mem_edges_addEdge hi

theorem mem_dependents_connect {reverse : Bool} (hj : j < a.size) :
    l ∈ (connect reverse a i j).dependents k ↔
      l ∈ a.dependents k ∨ (reverse = true ∧ k = j ∧ l = i) := by
  unfold connect
  split
  · next hreverse =>
    rw [Atlas.mem_edges_addEdge (by rwa [Atlas.size_addEdge]), Atlas.edges_addEdge_of_ne (by decide)]
    simp [hreverse]
  · next hreverse =>
    rw [Atlas.dependents, Atlas.edges_addEdge_of_ne (by decide)]
    simp [hreverse]

/-! ## Adding an include -/

theorem add_of_tracked (h : r.lead host d dir = .tracked path) {reverse : Bool} {b : Atlas}
    (hb : t.atlas.addPath Atlas.root path Path.root = (b, .ok j)) :
    t.add host r reverse i d dir = (⟨connect reverse b i j, t.dropped⟩, .ok (some j)) := by
  rw [add, h]
  dsimp only
  rw [hb]

theorem add_of_not_tracked (h : ∀ path, r.lead host d dir ≠ .tracked path) (reverse : Bool) :
    t.add host r reverse i d dir = (⟨t.atlas, t.dropped + 1⟩, .ok none) := by
  unfold add
  split
  · next path hpath => exact absurd hpath (h path)
  · rfl

/-- What is found for a header is tracked, if it lies in a root directory at all. -/
theorem tracks_of_resolve? {header : Text} {angled : Bool} {file : Text} (hr : r.AllClean)
    (hlinks : ∀ base ∈ r.scanDir :: r.includeDirs, host.LinkFree base) (hheader : header.Decoded)
    (hdir : dir.Decoded) (hfile : r.resolve? host header angled dir = some file)
    (hpath : r.nodePathFor host file = .ok (some path)) : r.Tracks host file ∧ Clean file := by
  obtain ⟨hfree, hisFile⟩ :=
    Resolver.of_resolve? (Host.peelable_linkFree host) hlinks hheader hdir hfile
  have hnormal := hfree.normal
  refine ⟨⟨hnormal.isAbsolute, hisFile, hfree.free,
    Resolver.exists_root_of_nodePathFor hr hfree.toClean hpath, ?_⟩, hfree.toClean⟩
  rw [hnormal.eq] at hisFile
  exact Host.at?_of_isFile hnormal.anchored hfree.of_mem hfree.free hisFile

/-- What drawing an include from node `i` to the node `j` with the given path makes of an atlas: nothing
is lost, and the only new edges are the one to `j` and, if `reverse` is set, the one back. -/
structure Drawn (reverse : Bool) (a b : Atlas) (i j : Nat) (path : Text) : Prop where
  lt_size : j < b.size
  fullName : b.fullName j Path.root = path
  keeps : a.Extends b
  dependencies : ∀ k l, l ∈ b.dependencies k ↔ l ∈ a.dependencies k ∨ (k = i ∧ l = j)
  dependents : ∀ k l, l ∈ b.dependents k ↔ l ∈ a.dependents k ∨ (reverse = true ∧ k = j ∧ l = i)

theorem drawn_connect {b : Atlas} (hwf : a.WellFormed) (hd : a.Decoded) (hi : i < a.size)
    (hpath : Leads path) (hjoin : Text.join [slash] (components path) = path)
    (hb : a.addPath Atlas.root path Path.root = (b, .ok j)) (reverse : Bool) :
    Drawn reverse a (connect reverse b i j) i j path := by
  obtain ⟨b', j', hb', hadds, hj⟩ := Atlas.addPath_adds hwf hd hpath
  obtain ⟨rfl, hok⟩ := Prod.mk.inj (hb.symm.trans hb')
  obtain rfl := Except.ok.inj hok
  -- The nodes on the way to the target bring no edges, so all new ones are those of `connect`.
  have hedges := Atlas.edges_addPath path Path.root hwf hwf.root_lt
  simp only [hb] at hedges
  have hconnect := extends_connect reverse b i j
  have hsame := hconnect.at hadds.wellFormed hj
  refine ⟨hsame.1, ?_, hadds.keeps.trans hconnect, fun k l => ?_, fun k l => ?_⟩
  · rw [Atlas.fullName, hsame.2]
    exact hjoin
  · rw [mem_dependencies_connect (hadds.keeps.lt_size hi), Atlas.dependencies, hedges]
  · rw [mem_dependents_connect hj.1, Atlas.dependents, hedges]

/-- **No include escapes from the root directories.** Whatever the bytes of a header, if the canonical
directories it is looked for in have no links in them, then adding the include either changes nothing but
the number of includes that were dropped, by one; or it draws the include to the node of a regular file
that lies in a root directory and is reached without a link. -/
theorem add_tracks_or_drops (hparams : params.Decoded) (hr : Resolver.ofParams host params = .ok r)
    (hlinks : ∀ base ∈ r.scanDir :: r.includeDirs, host.Linkless base) (hwf : t.atlas.WellFormed)
    (hd : t.atlas.Decoded) (hi : i < t.atlas.size) (reverse : Bool) (d : Source.Directive)
    (hdir : dir.Decoded) :
    t.add host r reverse i d dir = (⟨t.atlas, t.dropped + 1⟩, .ok none) ∨
      ∃ b j file path, t.add host r reverse i d dir = (⟨b, t.dropped⟩, .ok (some j)) ∧
        r.Tracks host file ∧ r.nodePathFor host file = .ok (some path) ∧
        Drawn reverse t.atlas b i j path := by
  have hclean := Resolver.allClean_of_ofParams hparams hr
  have hfree : ∀ base ∈ r.scanDir :: r.includeDirs, host.LinkFree base := fun base hbase =>
    ⟨hclean.searched base hbase, hlinks base hbase⟩
  by_cases htracked : ∃ path, r.lead host d dir = .tracked path
  · obtain ⟨path, hlead⟩ := htracked
    obtain ⟨_, file, hfile, hpath⟩ := Resolver.lead_eq_tracked_iff.1 hlead
    obtain ⟨htracks, hfileClean⟩ :=
      tracks_of_resolve? hclean hfree (Text.decoded_toText d.header) hdir hfile hpath
    obtain ⟨hleads, hjoin⟩ := Resolver.leads_of_nodePathFor hfileClean hpath
    obtain ⟨b, j, hb, _⟩ := Atlas.addPath_adds hwf hd hleads
    exact .inr ⟨_, j, file, path, add_of_tracked hlead hb, htracks, hpath,
      drawn_connect hwf hd hi hleads hjoin hb reverse⟩
  · exact .inl (add_of_not_tracked (fun path hpath => htracked ⟨path, hpath⟩) reverse)

/-- A directory `s` with a file in it and a link back to `s`. -/
def loopHost : Host where
  disk := ⟨.directory [(Text.key "s", .directory
    [(Text.key "h", .file [] .full), (Text.key "l", .link (Text.key "../s") .full)] .full)] .full⟩
  cwd := []
  env := []

/-- A header that goes through a link, up to the root of the disk, and down again through the link. -/
theorem add_tracks_or_drops_loop :
    let r : Resolver := ⟨"/s", [], ["/s"]⟩
    let d : Source.Directive := ⟨Text.key "l/../s/l/h", false⟩
    ∃ b j file path, empty.add loopHost r true Atlas.root d "" = (⟨b, 0⟩, .ok (some j)) ∧
      r.Tracks loopHost file ∧ r.nodePathFor loopHost file = .ok (some path) ∧
      Drawn true Atlas.empty b Atlas.root j path := by
  -- Evaluated on closed terms, before the abbreviations of the statement are introduced.
  have hr : Resolver.ofParams loopHost ⟨"s/l", "", [], ["/s"], [], [], [], [], true⟩ =
      .ok ⟨"/s", [], ["/s"]⟩ := by cbv
  have hdown : loopHost.peel Path.root "s" = .ok "/s" := by cbv
  have hlinks : ∀ base ∈ [Text.ofString "/s"], loopHost.Linkless base := by
    intro base hbase
    obtain rfl := List.mem_singleton.1 hbase
    exact ((Host.peelable_linkFree loopHost).peel Host.LinkFree.root (by decide) hdown).free
  have hadd : (empty.add loopHost ⟨"/s", [], ["/s"]⟩ true Atlas.root
      ⟨Text.key "l/../s/l/h", false⟩ "").2 = .ok (some 1) := by cbv
  intro r d
  refine (add_tracks_or_drops ⟨by decide, by decide, by decide⟩ hr hlinks Atlas.wellFormed_empty
    Atlas.decoded_empty (by decide) true d (by decide)).resolve_left fun hdropped => ?_
  rw [hdropped] at hadd
  simp at hadd

end Tracker

end Scan

end HeaderAtlas
