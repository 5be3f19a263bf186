import HeaderAtlas.Proofs.Scan.Naming
/-!
# Containment by components

Whether a directory contains a path is found out on texts: the normal form of the directory, with a slash
behind it unless it ends with one, must begin the normal form of the path. On paths that begin with the same
anchor this is the same as looking at components: those of the directory come first
(`Path.contains_iff_of_anchor_eq`). The path of a node is then made of the components that remain. There are
some, unless the path is the directory itself; all lead down; and they say which path it was
(`Resolver.contains_componentwise`).
-/

set_option autoImplicit false

namespace HeaderAtlas

namespace Path

variable {p q : Text}

/-! ## Paths below one root -/

/-- An absolute path that does not begin with exactly two slashes. -/
structure Rooted (p : Text) : Prop where
  isAbsolute : isAbsolute p = true
  not_two : (p.takeWhile (· == slash)).length ≠ 2

instance (p : Text) : Decidable (Rooted p) :=
  decidable_of_iff (isAbsolute p = true ∧ (p.takeWhile (· == slash)).length ≠ 2)
    ⟨fun h => ⟨h.1, h.2⟩, fun h => ⟨h.isAbsolute, h.not_two⟩⟩

namespace Rooted

theorem anchor_eq (h : Rooted p) : anchor p = [slash] := by
  obtain hanchor | hanchor := isAnchor_anchor h.isAbsolute
  · exact hanchor
  · unfold anchor at hanchor
    split at hanchor
    · simp at hanchor
    · next htwo => exact absurd htwo h.not_two
    · simp at hanchor

theorem isNormal (h : Rooted p) : IsNormal (normalize p) := (isNormal_normalize h.isAbsolute).1

theorem absolute_eq (h : Rooted p) (cwd : Text) : absolute cwd p = normalize p := by
  rw [absolute, join, if_pos h.isAbsolute]

/-- The root of a normal form is that of the path. -/
theorem anchor_normalize (h : Rooted p) : anchor (normalize p) = [slash] := by
  rw [normalize_eq h.isAbsolute,
    anchor_ofNames (isAnchor_anchor h.isAbsolute) fun n hn => (mem_normalComponents h.isAbsolute n hn).1,
    h.anchor_eq]

theorem normalize_eq_ofNames (h : Rooted p) : normalize p = ofNames [slash] (components (normalize p)) := by
  have heq := h.isNormal.eq
  rwa [h.anchor_normalize] at heq

/-- **Paths are compared by the components of their normal forms.** -/
theorem contains_iff (hp : Rooted p) (hq : Rooted q) (cwd : Text) :
    contains cwd p q = true ↔ components (normalize p) <+: components (normalize q) := by
  have hanchor : anchor (normalize p) = anchor (normalize q) := by
    rw [hp.anchor_normalize, hq.anchor_normalize]
  rw [← @contains_iff_of_anchor_eq _ _ cwd hp.isNormal hq.isNormal hanchor, contains, contains,
    absolute_eq_self hp.isNormal, absolute_eq_self hq.isNormal, hp.absolute_eq, hq.absolute_eq]

end Rooted

end Path

namespace Scan

namespace Resolver

open HeaderAtlas.Path

variable {host : Host} {outer inner inner' : Text}

/-! ## Names in a directory -/

/-- **What a directory contains is named by the components that remain**, or by a dot if none do. -/
theorem nodePath_of_contains (ho : Rooted outer) (hi : Rooted inner)
    (h : contains host.cwdText outer inner = true) :
    ∃ rest, components (normalize inner) = components (normalize outer) ++ rest ∧ (∀ n ∈ rest, Proper n) ∧
      nodePath host inner outer = .ok (if rest = [] then here else Text.join [slash] rest) := by
  obtain ⟨rest, hrest⟩ := (ho.contains_iff hi host.cwdText).1 h
  refine ⟨rest, hrest.symm, proper_of_rest hi.isNormal hrest.symm, ?_⟩
  have hne : inner.isEmpty = false := by
    cases inner with
    | nil => exact absurd hi.isAbsolute (by decide)
    | cons c inner => rfl
  have hcomponents : components (absolute host.cwdText inner) = components (absolute host.cwdText outer) ++ rest := by
    rw [ho.absolute_eq, hi.absolute_eq, hrest]
  rw [nodePath, hne, relative_eq hcomponents]
  rfl

/-- Paths with different normal forms have different names in a directory that contains both. -/
theorem nodePath_inj (ho : Rooted outer) (hi : Rooted inner) (hi' : Rooted inner')
    (h : contains host.cwdText outer inner = true) (h' : contains host.cwdText outer inner' = true)
    (heq : nodePath host inner outer = nodePath host inner' outer) : normalize inner = normalize inner' := by
  obtain ⟨rest, hrest, hproper, hpath⟩ := nodePath_of_contains ho hi h
  obtain ⟨rest', hrest', hproper', hpath'⟩ := nodePath_of_contains ho hi' h'
  rw [hpath, hpath'] at heq
  obtain rfl := names_injective hproper hproper' (Except.ok.inj heq)
  rw [hi.normalize_eq_ofNames, hi'.normalize_eq_ofNames, hrest, hrest']

/-- **Containment and naming go by components.** Paths may have slashes, `.` and `..` anywhere, as long as they
are absolute and do not begin with exactly two slashes. A directory contains a path if and only if the
components of its normal form begin those of the path's (1). If it does and the normal forms differ, the
segments of the path's name in the directory are the components that remain: there are some, and none is `.` or
`..` (2). Paths with different normal forms have different names in a directory (3). -/
theorem contains_componentwise (host : Host) {outer : Text} (ho : Rooted outer) :
    (∀ inner, Rooted inner →
      (contains host.cwdText outer inner = true ↔
        components (normalize outer) <+: components (normalize inner))) ∧
    (∀ inner, Rooted inner → contains host.cwdText outer inner = true → normalize inner ≠ normalize outer →
      ∃ path rest, nodePath host inner outer = .ok path ∧ Segments.ofPath path [slash] = .ok rest ∧
        components (normalize inner) = components (normalize outer) ++ rest ∧
        rest ≠ [] ∧ here ∉ rest ∧ up ∉ rest) ∧
    ∀ inner inner', Rooted inner → Rooted inner' → contains host.cwdText outer inner = true →
      contains host.cwdText outer inner' = true → normalize inner ≠ normalize inner' →
        nodePath host inner outer ≠ nodePath host inner' outer := by
  refine ⟨fun inner hi => ho.contains_iff hi host.cwdText, fun inner hi h hne => ?_,
    fun inner inner' hi hi' h h' hne heq => hne (nodePath_inj ho hi hi' h h' heq)⟩
  obtain ⟨rest, hrest, hproper, hpath⟩ := nodePath_of_contains ho hi h
  -- With no components left over, the normal forms would be the same.
  have hsome : rest ≠ [] := by
    rintro rfl
    rw [List.append_nil] at hrest
    exact hne (by rw [hi.normalize_eq_ofNames, hrest, ← ho.normalize_eq_ofNames])
  have hsegments := components_names hproper
  rw [if_neg hsome] at hpath
  rw [if_neg hsome, if_neg hsome] at hsegments
  refine ⟨_, rest, hpath, congrArg Except.ok hsegments, hrest, hsome, ?_, ?_⟩
  · exact fun hmem => (hproper here hmem).ne_here rfl
  · exact fun hmem => (hproper up hmem).ne_up rfl

/-- A directory that is not written in its normal form, with a file in it. The directory beside it has a name
that begins with the name of the first, and is not in it. -/
theorem contains_componentwise_sibling :
    let outer : Text := "/a/./b/"
    let inner : Text := "///a/x/..//b/c/f.h"
    (Rooted outer ∧ Rooted inner ∧ Rooted "/a/bc") ∧
      contains overlapHost.cwdText outer "/a/bc" = false ∧
      contains overlapHost.cwdText outer inner = true ∧ normalize inner ≠ normalize outer ∧
      ∃ path, nodePath overlapHost inner outer = .ok path ∧
        Segments.ofPath path [slash] = .ok ["c", "f.h"] ∧
        nodePath overlapHost outer outer ≠ .ok path := by
  intro outer inner
  have ho : Rooted outer := by decide
  have hi : Rooted inner := by decide
  have hs : Rooted "/a/bc" := by decide
  obtain ⟨hcontains, hnamed, hdistinct⟩ := contains_componentwise overlapHost ho
  have h : contains overlapHost.cwdText outer inner = true := (hcontains inner hi).2 (by decide)
  have hne : normalize inner ≠ normalize outer := by decide
  obtain ⟨path, rest, hpath, hrest, hcomponents, -⟩ := hnamed inner hi h hne
  have hnormal : components (normalize inner) = components (normalize outer) ++ (["c", "f.h"] : List Text) := by
    decide
  obtain rfl : rest = (["c", "f.h"] : List Text) :=
    List.append_cancel_left (hcomponents.symm.trans hnormal)
  refine ⟨⟨ho, hi, hs⟩, ?_, h, hne, path, hpath, hrest, ?_⟩
  · rw [← Bool.not_eq_true, hcontains _ hs]
    decide
  · rw [← hpath]
    exact (hdistinct inner outer hi ho h (contains_self _ _) hne).symm

end Resolver

end Scan

end HeaderAtlas
