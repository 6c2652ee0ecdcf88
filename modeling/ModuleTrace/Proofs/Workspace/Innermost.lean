import ModuleTrace.Proofs.Workspace.Packages

/-!
# The innermost package

The packages that hold a path lie in one another, and the one with the longest path is the
innermost. What is found for a path is the innermost of the members that hold it, and the root
where none does. That is the innermost of all packages, but for a root that lies inside every
member that holds the path.
-/

namespace ModuleTrace.Workspace

/-- A package that holds a path, and none of those that hold it has a longer path. -/
structure Innermost (packages : List Package) (path : Path) (package : Package) : Prop where
  mem : package ∈ packages
  holds : path.isUnder package.path = true
  deepest : ∀ other ∈ packages, path.isUnder other.path = true →
    other.path.parts.length ≤ package.path.parts.length

/-- The root holds a path, and so do members, but all of these have shorter paths. -/
structure RootWithin (w : Workspace) (path : Path) : Prop where
  root : path.isUnder w.root.path = true
  held : ∃ member ∈ w.members, path.isUnder member.path = true
  within : ∀ member ∈ w.members, path.isUnder member.path = true →
    member.path.parts.length < w.root.path.parts.length

theorem eq_nil_of_innermost {packages : List Package} (h : innermost packages = none) :
    packages = [] := by
  by_cases hne : packages = []
  · exact hne
  · obtain ⟨package, hpackage⟩ := exists_innermost hne
    rw [h] at hpackage
    cases hpackage

theorem length_le_of_innermost {packages : List Package} {package other : Package}
    (h : innermost packages = some package) (hother : other ∈ packages) :
    other.path.parts.length ≤ package.path.parts.length := by
  induction packages generalizing package with
  | nil => cases hother
  | cons first rest ih =>
      unfold innermost at h
      split at h
      · rename_i hrest
        rw [eq_nil_of_innermost hrest, List.mem_singleton] at hother
        cases h
        subst hother
        exact Nat.le_refl _
      · rename_i found hfound
        rcases List.mem_cons.1 hother with rfl | hother
        · split at h <;> cases h <;> omega
        · have hle := ih hfound hother
          split at h <;> cases h <;> omega

theorem innermost_of_filter {members : List Package} {path : Path} {package : Package}
    (h : innermost (members.filter fun member => path.isUnder member.path) = some package) :
    Innermost members path package := by
  obtain ⟨hmem, hholds⟩ := List.mem_filter.1 (mem_of_innermost h)
  refine ⟨hmem, hholds, fun other hother hunder => ?_⟩
  exact length_le_of_innermost h (List.mem_filter.2 ⟨hother, hunder⟩)

/-- What is found for a path is the innermost of the members that hold it, or the root, and then
none of them does. -/
theorem innermost_of_byPath {w : Workspace} {path : Path} {package : Package}
    (h : w.byPath path = some package) :
    Innermost w.members path package ∨ package = w.root ∧ path.isUnder w.root.path = true ∧
      ∀ member ∈ w.members, path.isUnder member.path = false := by
  unfold byPath at h
  split at h
  · rename_i member hmember
    cases h
    exact .inl (innermost_of_filter hmember)
  · rename_i hnone
    split at h
    · rename_i hroot
      cases h
      have hempty := List.filter_eq_nil_iff.1 (eq_nil_of_innermost hnone)
      exact .inr ⟨rfl, hroot, fun member hmember => by simpa using hempty member hmember⟩
    · cases h

/-- The innermost member is the innermost of all packages, unless the root lies inside it. -/
theorem Innermost.packages_iff {w : Workspace} {path : Path} {package : Package}
    (h : Innermost w.members path package) :
    Innermost w.packages path package ↔ ¬ w.RootWithin path := by
  refine ⟨fun hall hwithin => ?_, fun hout => ⟨List.mem_cons_of_mem _ h.mem, h.holds, ?_⟩⟩
  · have hshorter := hwithin.within package h.mem h.holds
    have hdeepest := hall.deepest w.root List.mem_cons_self hwithin.root
    omega
  · intro other hother hunder
    rcases List.mem_cons.1 hother with rfl | hother
    · refine Nat.le_of_not_lt fun hlonger => hout ⟨hunder, ⟨package, h.mem, h.holds⟩, ?_⟩
      intro member hmember hholds
      exact Nat.lt_of_le_of_lt (h.deepest member hmember hholds) hlonger
    · exact h.deepest other hother hunder

/-- Where no member holds a path, the root is the only package that can. -/
theorem innermost_root {w : Workspace} {path : Path} (hroot : path.isUnder w.root.path = true)
    (hnone : ∀ member ∈ w.members, path.isUnder member.path = false) :
    Innermost w.packages path w.root := by
  refine ⟨List.mem_cons_self, hroot, fun other hother hunder => ?_⟩
  rcases List.mem_cons.1 hother with rfl | hmember
  · exact Nat.le_refl _
  · rw [hnone other hmember] at hunder
    cases hunder

/-- A path has a package exactly when the root or some member holds it. The package that is found
holds the path, no member that does has a longer path, and no package at all does unless the root
lies inside those members. -/
theorem byPath_innermost (w : Workspace) (path : Path) :
    ((∃ package, w.byPath path = some package) ↔
      path.isUnder w.root.path = true ∨ ∃ member ∈ w.members, path.isUnder member.path = true) ∧
    ∀ package, w.byPath path = some package →
      package ∈ w.packages ∧ path.isUnder package.path = true ∧
      (∀ member ∈ w.members, path.isUnder member.path = true →
        member.path.parts.length ≤ package.path.parts.length) ∧
      (Innermost w.packages path package ↔ ¬ w.RootWithin path) := by
  refine ⟨⟨fun ⟨package, hfound⟩ => ?_, fun h => ?_⟩, fun package hfound => ?_⟩
  · obtain ⟨hmem, hholds⟩ := mem_of_byPath hfound
    rcases List.mem_cons.1 hmem with rfl | hmember
    · exact .inl hholds
    · exact .inr ⟨package, hmember, hholds⟩
  · rcases h with hroot | ⟨member, hmember, hholds⟩
    · exact exists_byPath List.mem_cons_self hroot
    · exact exists_byPath (List.mem_cons_of_mem _ hmember) hholds
  · obtain ⟨hmem, hholds⟩ := mem_of_byPath hfound
    refine ⟨hmem, hholds, ?_⟩
    rcases innermost_of_byPath hfound with hinner | ⟨rfl, hroot, hnone⟩
    · exact ⟨hinner.deepest, hinner.packages_iff⟩
    · have hdeepest := innermost_root hroot hnone
      refine ⟨fun member hmember => hdeepest.deepest member (List.mem_cons_of_mem _ hmember), ?_⟩
      refine ⟨fun _ hwithin => ?_, fun _ => hdeepest⟩
      obtain ⟨member, hmember, hmemberHolds⟩ := hwithin.held
      rw [hnone member hmember] at hmemberHolds
      cases hmemberHolds

def nestedPackages : Workspace where
  root := ⟨"monorepo", ⟨"/repo"⟩, none⟩
  members := [⟨"core", ⟨"/repo/packages/core"⟩, none⟩,
    ⟨"core-extra", ⟨"/repo/packages/core/extra/"⟩, none⟩, ⟨"web", ⟨"/repo/apps/web"⟩, none⟩]

theorem byPath_innermost_nested :
    nestedPackages.byPath ⟨"/repo/packages/core/extra/src/a.ts"⟩
        = some ⟨"core-extra", ⟨"/repo/packages/core/extra/"⟩, none⟩ ∧
      Innermost nestedPackages.packages ⟨"/repo/packages/core/extra/src/a.ts"⟩
        ⟨"core-extra", ⟨"/repo/packages/core/extra/"⟩, none⟩ := by
  have hfound : nestedPackages.byPath ⟨"/repo/packages/core/extra/src/a.ts"⟩
      = some ⟨"core-extra", ⟨"/repo/packages/core/extra/"⟩, none⟩ := by decide
  obtain ⟨-, -, -, hiff⟩ := (byPath_innermost nestedPackages _).2 _ hfound
  refine ⟨hfound, hiff.2 fun hwithin => ?_⟩
  have hshorter := hwithin.within ⟨"core", ⟨"/repo/packages/core"⟩, none⟩ (by decide) (by decide)
  revert hshorter
  decide

/-- A root inside a member, as where a workspace lists a directory above its own. -/
def enclosedRoot : Workspace where
  root := ⟨"app", ⟨"/repo/app"⟩, none⟩
  members := [⟨"all", ⟨"/repo"⟩, none⟩]

/-- A root inside a member is passed over. -/
theorem byPath_innermost_enclosed :
    enclosedRoot.byPath ⟨"/repo/app/x.js"⟩ = some ⟨"all", ⟨"/repo"⟩, none⟩ ∧
      ¬ Innermost enclosedRoot.packages ⟨"/repo/app/x.js"⟩ ⟨"all", ⟨"/repo"⟩, none⟩ := by
  refine ⟨by decide, fun h => ?_⟩
  have hle := h.deepest enclosedRoot.root (by decide) (by decide)
  revert hle
  decide

end ModuleTrace.Workspace
