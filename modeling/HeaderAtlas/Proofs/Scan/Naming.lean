import HeaderAtlas.Proofs.Scan.Resolver
import Mathlib.Data.List.Permutation
/-!
# Files that share a node

Files in the scan directory are named from there, all others from the first root directory they lie in.
Two files named from one directory never share a path. A file in the scan directory may share its path
with one in a root directory, and so may two files in different root directories: that happens if and
only if the names left of both are the same (`Resolver.nodePathFor_separates`). Files share a node
exactly when they share a path.
-/

set_option autoImplicit false

namespace HeaderAtlas

namespace Scan

namespace Resolver

open HeaderAtlas.Path

variable {host : Host} {r : Resolver} {c₁ c₂ b₁ b₂ p₁ p₂ : Text}

/-- The path of a node says which names were left of its file. -/
theorem names_injective {xs ys : List Text} (hx : ∀ n ∈ xs, Proper n) (hy : ∀ n ∈ ys, Proper n)
    (h : (if xs = [] then here else Text.join [slash] xs) =
      if ys = [] then here else Text.join [slash] ys) : xs = ys := by
  have hcomponents := congrArg components h
  rw [components_names hx, components_names hy] at hcomponents
  -- The dot stands for no names at all, and no proper name is a dot.
  have hdot : ∀ {zs : List Text}, (∀ n ∈ zs, Proper n) → zs ≠ [here] := by
    rintro zs hz rfl
    exact (hz here List.mem_cons_self).ne_here rfl
  by_cases hxs : xs = []
  · by_cases hys : ys = []
    · rw [hxs, hys]
    · rw [if_pos hxs, if_neg hys] at hcomponents
      exact absurd hcomponents.symm (hdot hy)
  · by_cases hys : ys = []
    · rw [if_neg hxs, if_pos hys] at hcomponents
      exact absurd hcomponents (hdot hx)
    · rwa [if_neg hxs, if_neg hys] at hcomponents

/-- Names that are left of a file are proper. -/
theorem proper_of_rest {file start : Text} {rest : List Text} (hfile : IsNormal file)
    (hrest : components file = components start ++ rest) : ∀ n ∈ rest, Proper n := by
  intro n hn
  apply hfile.proper n
  rw [hrest]
  exact List.mem_append_right _ hn

theorem NamedFrom.unique (h₁ : r.NamedFrom host c₁ b₁) (h₂ : r.NamedFrom host c₁ b₂) : b₁ = b₂ := by
  obtain ⟨root₁, hroot₁, rfl⟩ := namedFrom_iff.1 h₁
  obtain ⟨root₂, hroot₂, rfl⟩ := namedFrom_iff.1 h₂
  rw [hroot₁] at hroot₂
  rw [Option.some.inj hroot₂]

/-- **When files share a path**: the same names are left of both. -/
theorem nodePathFor_eq_iff (h₁ : IsNormal c₁) (h₂ : IsNormal c₂)
    (hp₁ : r.nodePathFor host c₁ = .ok (some p₁)) (hp₂ : r.nodePathFor host c₂ = .ok (some p₂))
    (hb₁ : r.NamedFrom host c₁ b₁) (hb₂ : r.NamedFrom host c₂ b₂) :
    p₁ = p₂ ↔ ∃ rest, components c₁ = components (host.absolute b₁) ++ rest ∧
      components c₂ = components (host.absolute b₂) ++ rest := by
  obtain ⟨b₁', rest₁, hnamed₁, hrest₁, rfl⟩ := (nodePathFor_eq_some_iff h₁).1 hp₁
  obtain ⟨b₂', rest₂, hnamed₂, hrest₂, rfl⟩ := (nodePathFor_eq_some_iff h₂).1 hp₂
  obtain rfl := hnamed₁.unique hb₁
  obtain rfl := hnamed₂.unique hb₂
  constructor
  · intro hpath
    obtain rfl := names_injective (proper_of_rest h₁ hrest₁) (proper_of_rest h₂ hrest₂) hpath
    exact ⟨rest₁, hrest₁, hrest₂⟩
  · rintro ⟨rest, hrest₁', hrest₂'⟩
    have heq₁ : rest₁ = rest := List.append_cancel_left (hrest₁.symm.trans hrest₁')
    have heq₂ : rest₂ = rest := List.append_cancel_left (hrest₂.symm.trans hrest₂')
    rw [heq₁, heq₂]

/-- Nodes that are asked for by paths are different exactly when the paths are. -/
theorem addPath_eq_iff {a : Atlas} (ha : a.WellFormed) (hd : a.Decoded) (h₁ : Leads p₁) (h₂ : Leads p₂)
    (hj₁ : Text.join [slash] (components p₁) = p₁) (hj₂ : Text.join [slash] (components p₂) = p₂) :
    ∃ b d i j, a.addPath Atlas.root p₁ Path.root = (b, .ok i) ∧
      b.addPath Atlas.root p₂ Path.root = (d, .ok j) ∧ (i = j ↔ p₁ = p₂) := by
  obtain ⟨b, i, hb, hadds, hi⟩ := Atlas.addPath_adds ha hd h₁
  obtain ⟨d, j, hd, hadds', hj⟩ := Atlas.addPath_adds hadds.wellFormed hadds.decoded h₂
  have hi := hadds'.keeps.at hadds.wellFormed hi
  refine ⟨b, d, i, j, hb, hd, ?_, ?_⟩
  · rintro rfl
    have hcomponents : components p₁ = components p₂ := hi.2.symm.trans hj.2
    rw [← hj₁, ← hj₂, hcomponents]
  · rintro rfl
    exact hi.unique hadds'.wellFormed hj

/-- **Files named from one directory have nodes of their own.** Every file that has a path is named from
one directory. Different files named from the same directory have different paths; in general, files
share a path exactly when the same names are left of both. Paths that are the same lead to the same
node, and different ones to different nodes. Two slashes at the beginning of a path mean what one
means, so files are told apart by their names. -/
theorem nodePathFor_separates (h₁ : Clean c₁) (h₂ : Clean c₂)
    (hp₁ : r.nodePathFor host c₁ = .ok (some p₁)) (hp₂ : r.nodePathFor host c₂ = .ok (some p₂)) :
    ∃ b₁ b₂, r.NamedFrom host c₁ b₁ ∧ r.NamedFrom host c₂ b₂ ∧
      (b₁ = b₂ → components c₁ ≠ components c₂ → p₁ ≠ p₂) ∧
      (p₁ = p₂ ↔ ∃ rest, components c₁ = components (host.absolute b₁) ++ rest ∧
        components c₂ = components (host.absolute b₂) ++ rest) ∧
      ∀ a : Atlas, a.WellFormed → a.Decoded →
        ∃ b d i j, a.addPath Atlas.root p₁ Path.root = (b, .ok i) ∧
          b.addPath Atlas.root p₂ Path.root = (d, .ok j) ∧ (i = j ↔ p₁ = p₂) := by
  obtain ⟨b₁, _, hb₁, _⟩ := (nodePathFor_eq_some_iff h₁.normal).1 hp₁
  obtain ⟨b₂, _, hb₂, _⟩ := (nodePathFor_eq_some_iff h₂.normal).1 hp₂
  have hshared := nodePathFor_eq_iff h₁.normal h₂.normal hp₁ hp₂ hb₁ hb₂
  refine ⟨b₁, b₂, hb₁, hb₂, ?_, hshared, ?_⟩
  · rintro rfl hne hpath
    obtain ⟨rest, hrest₁, hrest₂⟩ := hshared.1 hpath
    exact hne (hrest₁.trans hrest₂.symm)
  · intro a ha hd
    obtain ⟨hleads₁, hjoin₁⟩ := leads_of_nodePathFor h₁ hp₁
    obtain ⟨hleads₂, hjoin₂⟩ := leads_of_nodePathFor h₂ hp₂
    exact addPath_eq_iff ha hd hleads₁ hleads₂ hjoin₁ hjoin₂

/-- A directory `p` with a file `x`, and in it a directory `libs` with another file `x`. -/
def overlapHost : Host where
  disk := ⟨.directory [(Text.key "p", .directory
    [(Text.key "libs", .directory [(Text.key "x", .file [] .full)] .full),
      (Text.key "x", .file [] .full)] .full)] .full⟩
  cwd := []
  env := []

/-- Both files are reached without a link. -/
theorem linkFree_overlap : overlapHost.LinkFree "/p/libs/x" ∧ overlapHost.LinkFree "/p/x" := by
  have hinner : overlapHost.peel Path.root "p/libs/x" = .ok "/p/libs/x" := by cbv
  have houter : overlapHost.peel Path.root "p/x" = .ok "/p/x" := by cbv
  have hpeel := Host.peelable_linkFree overlapHost
  exact ⟨hpeel.peel Host.LinkFree.root (by decide) hinner, hpeel.peel Host.LinkFree.root (by decide) houter⟩

/-- With `p` as the scan directory both files are named from there, though one of them lies in a root
directory further down. -/
theorem nodePathFor_separates_nested :
    let r : Resolver := ⟨"/p", [], ["/p/libs", "/p"]⟩
    Clean "/p/libs/x" ∧ Clean "/p/x" ∧
      r.nodePathFor overlapHost "/p/libs/x" = .ok (some "libs/x") ∧
      r.nodePathFor overlapHost "/p/x" = .ok (some "x") ∧
      ∃ b d i j, Atlas.empty.addPath Atlas.root "libs/x" Path.root = (b, .ok i) ∧
        b.addPath Atlas.root "x" Path.root = (d, .ok j) ∧ i ≠ j := by
  intro r
  obtain ⟨h₁, h₂⟩ := linkFree_overlap
  have hp₁ : r.nodePathFor overlapHost "/p/libs/x" = .ok (some "libs/x") := by decide
  have hp₂ : r.nodePathFor overlapHost "/p/x" = .ok (some "x") := by decide
  refine ⟨h₁.toClean, h₂.toClean, hp₁, hp₂, ?_⟩
  obtain ⟨_, _, _, _, _, _, hnodes⟩ := nodePathFor_separates h₁.toClean h₂.toClean hp₁ hp₂
  obtain ⟨b, d, i, j, hi, hj, heq⟩ := hnodes Atlas.empty Atlas.wellFormed_empty Atlas.decoded_empty
  exact ⟨b, d, i, j, hi, hj, fun h => absurd (heq.1 h) (by decide)⟩

/-- With `libs` as the scan directory one file is named from there and the other from the root directory
above it, and they share a path. -/
theorem nodePathFor_overlap :
    let params : Params := ⟨"/p/libs", "/p", [], ["/p"], [], [], [], [], true⟩
    ∃ r, Resolver.ofParams overlapHost params = .ok r ∧
      (overlapHost.LinkFree "/p/libs/x" ∧ overlapHost.isFile "/p/libs/x" = true) ∧
      (overlapHost.LinkFree "/p/x" ∧ overlapHost.isFile "/p/x" = true) ∧
      components "/p/libs/x" ≠ components "/p/x" ∧
      r.nodePathFor overlapHost "/p/libs/x" = .ok (some "x") ∧
      r.nodePathFor overlapHost "/p/x" = .ok (some "x") := by
  -- Evaluated on closed terms, before the abbreviation of the statement is introduced.
  have hr : Resolver.ofParams overlapHost ⟨"/p/libs", "/p", [], ["/p"], [], [], [], [], true⟩ =
      .ok ⟨"/p/libs", [], ["/p"]⟩ := by cbv
  have hfile₁ : overlapHost.isFile "/p/libs/x" = true := by cbv
  have hfile₂ : overlapHost.isFile "/p/x" = true := by cbv
  intro params
  obtain ⟨h₁, h₂⟩ := linkFree_overlap
  exact ⟨_, hr, ⟨h₁, hfile₁⟩, ⟨h₂, hfile₂⟩, by decide, by decide, by decide⟩

end Resolver

end Scan

end HeaderAtlas
