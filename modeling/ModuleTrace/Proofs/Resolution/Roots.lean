import ModuleTrace.Proofs.Resolution.Keeping

/-!
# Spellings of a root

A root is only ever compared with directories, part by part. So a question has the same answer
and does the same under two spellings of the root and of the boundary.
-/

namespace ModuleTrace

/-- Two directories, if any, of the same parts. -/
def SameDirectory (a b : Option Path) : Prop :=
  a.map Path.parts = b.map Path.parts

theorem SameDirectory.any_same {a b : Option Path} (h : SameDirectory a b) (d : Path) :
    a.any d.same = b.any d.same := by
  unfold SameDirectory at h
  cases a <;> cases b <;> simp_all [Path.same]

namespace Knowledge

variable {m : Type → Type} [Monad m] {α : Type} {root other : Option Path}

/-- The root counts only where it is passed. -/
theorem search_congr (kind : Kind m α) (directories passed : List Path)
    (h : ∀ d ∈ directories, root.any d.same = other.any d.same) :
    search kind root directories passed = search kind other directories passed := by
  induction directories generalizing passed with
  | nil => rfl
  | cons directory rest ih =>
      have hrest := ih (directory :: passed) fun d hd => h d (List.mem_cons_of_mem _ hd)
      rw [search, search, h directory List.mem_cons_self, hrest]

theorem nearest_congr (kind : Kind m α) (directory : Path)
    (h : ∀ d ∈ directory.ancestors, root.any d.same = other.any d.same) :
    nearest kind root directory = nearest kind other directory := by
  unfold nearest
  rw [search_congr kind _ _ h]

variable (h : SameDirectory root other) (loader : Loader m)

include h

theorem manifestFor_congr (directory : Path) :
    manifestFor loader root directory = manifestFor loader other directory :=
  nearest_congr _ _ fun d _ => h.any_same d

theorem configFor_congr (directory : Path) :
    configFor loader root directory = configFor loader other directory :=
  nearest_congr _ _ fun d _ => h.any_same d

end Knowledge

/-- Surroundings that differ in the spelling of the root and the boundary. -/
structure Surroundings.Same (s t : Surroundings) : Prop where
  root : SameDirectory s.root t.root
  workspace : s.workspace = t.workspace
  boundary : SameDirectory s.boundary t.boundary

namespace Surroundings.Same

variable {s t : Surroundings} (h : s.Same t)

include h

theorem permits (path : Path) : s.permits path = t.permits path := by
  have hboundary := h.boundary
  unfold SameDirectory at hboundary
  unfold Surroundings.permits
  cases hs : s.boundary <;> cases ht : t.boundary <;> simp_all [Path.isUnder]

theorem inside (package : Package) : (s.inside package).Same (t.inside package) := by
  refine ⟨h.root, h.workspace, ?_⟩
  have hboundary := h.boundary
  unfold SameDirectory at hboundary
  unfold Surroundings.inside SameDirectory
  cases hs : s.boundary <;> cases ht : t.boundary <;> simp_all

end Surroundings.Same

namespace Classifier

variable {m : Type → Type} [Monad m] (loader : Loader m) {s t : Surroundings} (h : s.Same t)

include h

theorem manifestAt_congr (path : Path) :
    manifestAt loader s.root path = manifestAt loader t.root path := by
  unfold manifestAt
  simp only [Knowledge.manifestFor_congr h.root]

/-- By induction on how far manifests are followed. -/
theorem lookup_congr (depth : Nat) (target : Path) (config : Option ProjectConfig) :
    lookup loader s depth target config = lookup loader t depth target config := by
  induction depth generalizing target config with
  | zero =>
      have hsame : tryCandidate loader s 0 config = tryCandidate loader t 0 config := by
        funext candidate
        cases candidate with
        | file path => simp only [tryCandidate, h.permits]
        | manifest path => rfl
      rw [lookup_eq, lookup_eq, hsame]
  | succ depth ih =>
      have hsame : tryCandidate loader s (depth + 1) config
          = tryCandidate loader t (depth + 1) config := by
        funext candidate
        cases candidate with
        | file path => simp only [tryCandidate, h.permits]
        | manifest path =>
            simp only [tryCandidate, manifestAt_congr loader h,
              Knowledge.configFor_congr h.root, ih]
      rw [lookup_eq, lookup_eq, hsame]

theorem byRule_congr (specifier : String) (config : Option ProjectConfig) (rule : Rule)
    (target : Path) :
    byRule loader s specifier config rule target
      = byRule loader t specifier config rule target := by
  unfold byRule
  rw [lookup_congr loader h]

theorem byWorkspace_congr (specifier : String) :
    byWorkspace loader s specifier = byWorkspace loader t specifier := by
  unfold byWorkspace
  simp only [h.workspace, Knowledge.configFor_congr h.root, byRule_congr loader (h.inside _)]

theorem bare_congr (directory : Path) (config : Option ProjectConfig) (specifier : String) :
    bare loader s directory config specifier = bare loader t directory config specifier := by
  unfold bare byAlias byBase byPackage
  simp only [byRule_congr loader h, Knowledge.manifestFor_congr h.root, byWorkspace_congr loader h]

theorem classify_congr (file : SourceFile) (specifier : String) :
    classify loader s file specifier = classify loader t file specifier := by
  unfold classify
  simp only [Knowledge.configFor_congr h.root, byRule_congr loader h, bare_congr loader h]

end Classifier

end ModuleTrace
