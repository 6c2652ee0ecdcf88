import ModuleTrace.Proofs.Path.Clean
import ModuleTrace.Workspace.Package

/-!
# Packages that are found

What is found by a name or by a path is a package of the workspace, and it has that name or holds
that path.
-/

namespace ModuleTrace

namespace Workspace

def packages (w : Workspace) : List Package :=
  w.root :: w.members

def Normal (w : Workspace) : Prop :=
  ∀ package ∈ w.packages, package.path.isAbsolute = true ∧ package.path.normalize = package.path

theorem Normal.clean {w : Workspace} (h : w.Normal) {package : Package}
    (hpackage : package ∈ w.packages) : package.path.Clean := by
  obtain ⟨habsolute, hnormal⟩ := h package hpackage
  rw [← hnormal]
  exact Path.clean_normalize habsolute

theorem mem_of_innermost {packages : List Package} {package : Package}
    (h : innermost packages = some package) : package ∈ packages := by
  induction packages with
  | nil => cases h
  | cons first rest ih =>
      unfold innermost at h
      split at h
      · cases h
        exact List.mem_cons_self
      · rename_i other hother
        split at h
        · cases h
          exact List.mem_cons_self
        · exact List.mem_cons_of_mem _ (ih (hother.trans h))

theorem exists_innermost {packages : List Package} (h : packages ≠ []) :
    ∃ package, innermost packages = some package := by
  cases packages with
  | nil => exact absurd rfl h
  | cons first rest =>
      unfold innermost
      split
      · exact ⟨first, rfl⟩
      · split <;> exact ⟨_, rfl⟩

theorem mem_of_byPath {w : Workspace} {path : Path} {package : Package}
    (h : w.byPath path = some package) :
    package ∈ w.packages ∧ path.isUnder package.path = true := by
  unfold byPath at h
  split at h
  · rename_i member hmember
    cases h
    have hmem := List.mem_filter.1 (mem_of_innermost hmember)
    exact ⟨List.mem_cons_of_mem _ hmem.1, hmem.2⟩
  · split at h
    · rename_i hroot
      cases h
      exact ⟨List.mem_cons_self, hroot⟩
    · cases h

theorem exists_byPath {w : Workspace} {path : Path} {package : Package}
    (hpackage : package ∈ w.packages) (hpath : path.isUnder package.path = true) :
    ∃ holder, w.byPath path = some holder := by
  unfold byPath
  cases hinnermost : innermost (w.members.filter fun member => path.isUnder member.path) with
  | some member => exact ⟨member, rfl⟩
  | none =>
      rcases List.mem_cons.1 hpackage with rfl | hmember
      · exact ⟨w.root, by simp [contains, hpath]⟩
      · have hne : (w.members.filter fun member => path.isUnder member.path) ≠ [] :=
          List.ne_nil_of_mem (List.mem_filter.2 ⟨hmember, hpath⟩)
        obtain ⟨member, hsome⟩ := exists_innermost hne
        rw [hinnermost] at hsome
        cases hsome

theorem byName_spec {w : Workspace} {name : String} {package : Package}
    (h : w.byName name = some package) : package ∈ w.packages ∧ package.name = name := by
  unfold byName at h
  split at h
  · rename_i member hmember
    cases h
    have hname : package.name = name := by simpa using List.find?_some hmember
    exact ⟨List.mem_cons_of_mem _ (List.mem_of_find?_eq_some hmember), hname⟩
  · split at h
    · rename_i hname
      cases h
      exact ⟨List.mem_cons_self, hname⟩
    · cases h

theorem mem_of_byName {w : Workspace} {name : String} {package : Package}
    (h : w.byName name = some package) : package ∈ w.packages :=
  (byName_spec h).1

theorem name_of_byName {w : Workspace} {name : String} {package : Package}
    (h : w.byName name = some package) : package.name = name :=
  (byName_spec h).2

end Workspace

end ModuleTrace
