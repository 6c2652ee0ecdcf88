import ModuleTrace.Proofs.Resolution.Questions
import ModuleTrace.Proofs.Traversal.Terrain

/-!
# Zones of a traversal

What is found for a file depends on what is remembered of others, but all that is remembered was
let through by the surroundings of its own file, whatever was called before. A traversal that
starts in a zone which the surroundings of its files do not let it leave stays in that zone.
-/

namespace ModuleTrace

namespace Session

/-! ## What is remembered of a file -/

section

variable {m : Type → Type} (s : Session m)

/-- An analysis of a file that its surroundings let through. -/
structure Confines (file : SourceFile) (analysis : Analysis) : Prop where
  kind : file.kind? ≠ none
  admits : ∀ d ∈ analysis.dependencies.locals, (s.surroundings file).Admits d
  clean : file.path.Clean → (s.surroundings file).Clean →
    ∀ d ∈ analysis.dependencies.locals, d.path.NearlyClean

/-- A path of a known kind ends in a name, so it does not lead up at all. -/
theorem clean_of_kind? {file : SourceFile} (h : file.path.NearlyClean) (hkind : file.kind? ≠ none) :
    file.path.Clean := by
  cases hname : file.path.name? with
  | some text => exact h.clean hname
  | none =>
      exact absurd (by simp [SourceFile.kind?, FileKind.ofPath?, Path.extension?, hname]) hkind

/-- A set of places that a traversal does not leave: the dependencies of a file that is where it
may start or in the zone are in the zone. -/
structure Zone {m : Type → Type} (s : Session m) where
  Start : Path → Prop
  Holds : Path → Prop
  start_congr : ∀ p q : Path, p.parts = q.parts → Start p → Start q
  holds_congr : ∀ p q : Path, p.parts = q.parts → Holds p → Holds q
  step : ∀ (file : SourceFile) (analysis : Analysis), Start file.path ∨ Holds file.path →
    s.Confines file analysis → ∀ d ∈ analysis.dependencies.locals, Holds d.path

end

section

variable {m : Type → Type} [Monad m] [LawfulMonad m] (s : Session m)

/-- Every local dependency of a file is let through by the surroundings of the file. -/
def confinement : s.Ground where
  Knows := Knowledge.Tidy
  Finds file d := (s.surroundings file).Admits d ∧
    (file.path.Clean → (s.surroundings file).Clean → d.path.NearlyClean)
  finds_congr f g d h hd := by
    rw [← surroundings_congr s h]
    exact ⟨hd.1, fun hg => hd.2 (hg.congr h.symm)⟩
  classify file specifier := by
    refine (Classifier.classify_confined s.loader _ file specifier).mono fun answer h d hd => ?_
    exact ⟨(h d hd).1, fun hfile hs => (h d hd).2 ⟨hfile, hs⟩⟩

variable {s}

theorem confinement_load (path : Path) : Ensures (confinement s).Knows
    (Knowledge.load s.loader path) (GivesOrFails (fun _ => True) path) :=
  Knowledge.load_tidy s.loader path

theorem confines_of_records {file : SourceFile} {analysis : Analysis}
    (h : (confinement s).Records file analysis) : s.Confines file analysis :=
  ⟨h.kind, fun d hd => (h.finds d hd).1, fun hfile hs d hd => (h.finds d hd).2 hfile hs⟩

/-! ## What a traversal finds in a zone -/

/-- A zone as a region in which every path may fail. -/
def Zone.region (zone : s.Zone) : (confinement s).Region where
  Start := zone.Start
  Holds := zone.Holds
  Fails _ := True
  start_congr := zone.start_congr
  holds_congr := zone.holds_congr
  load path _ := confinement_load path
  step file d hkind hfile hd := by
    have hconfines : s.Confines file { dependencies := { locals := [d] } } := by
      refine ⟨hkind, fun other hother => ?_, fun hclean hs other hother => ?_⟩
      · rw [List.mem_singleton.1 hother]
        exact hd.1
      · rw [List.mem_singleton.1 hother]
        exact hd.2 hclean hs
    exact zone.step file _ hfile hconfines d List.mem_cons_self

/-- What a traversal that starts in a zone finds there: every file was taken apart, and its
dependencies were let through. -/
structure Zone.Contains (zone : s.Zone) (reach : Reach) (memory : Memory) : Prop where
  files : ∀ file ∈ reach.files, zone.Holds file.path
  entrypoint : zone.Start reach.entrypoint.path
  analyses : ∀ file ∈ reach.entrypoint :: reach.files, ∃ analysis,
    memory.analyses[file.path.parts]? = some analysis ∧ s.Confines file analysis

theorem collect_contained (zone : s.Zone) {e : Path} (hstart : zone.Start e.normalize)
    (calls : List (Call m)) :
    Always (fun result => ∀ reach, result.1 = .ok reach → zone.Contains reach result.2)
      ((do s.performAll calls; s.collect e).run {}) := by
  have hrun := performAll_collect confinement_load zone.region Knowledge.tidy_nothing hstart calls
  refine hrun.mono fun result h reach hreach => ?_
  have hcovers := h reach hreach
  refine ⟨hcovers.files, hcovers.start, fun file hfile => ?_⟩
  obtain ⟨analysis, hanalysis, hrecords, -⟩ := hcovers.analyses file hfile
  exact ⟨analysis, hanalysis, confines_of_records hrecords⟩

end

end Session

end ModuleTrace
