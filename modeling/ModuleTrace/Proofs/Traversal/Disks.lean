import ModuleTrace.FileSystem.Tree
import ModuleTrace.Proofs.Memory.Runs
import ModuleTrace.Proofs.Resolution.Probing
import ModuleTrace.Proofs.Traversal.Agreement
import ModuleTrace.Proofs.Traversal.Problems
import ModuleTrace.Proofs.Traversal.Reachability

/-!
# Sessions over disks

On a disk the spelling of a path can count: with a slash behind its name a file is none. So the
loader of a disk is not fixed, and what holds of fixed loaders does not speak of it at once. It
does for every run in which the disk answers as it would under the plain spelling of each path that
is asked for: that run is one over a fixed loader.
-/

namespace ModuleTrace

namespace Loader

def plainly (loader : Loader Id) : Loader Id where
  read path := loader.read (.ofParts path.parts)
  isFile path := loader.isFile (.ofParts path.parts)
  isDirectory path := loader.isDirectory (.ofParts path.parts)
  extent := loader.extent

theorem plainly_fixed {loader : Loader Id}
    (h : ∀ path contents, (loader.read path).run = .ok contents → (loader.isFile path).run = true) :
    loader.plainly.Fixed where
  read_same p q hsame := by simp only [plainly, (Path.same_iff p q).1 hsame]
  isFile_same p q hsame := by simp only [plainly, (Path.same_iff p q).1 hsame]
  isFile_of_read path contents := h _ contents

end Loader

theorem FileTree.plainly_fixed (root : FileTree) (directory : Path) :
    (root.fileSystem directory).loader.plainly.Fixed := by
  refine Loader.plainly_fixed fun path contents hread => ?_
  simp only [fileSystem, FileSystem.loader, FileSystem.isFile] at hread ⊢
  split at hread
  · cases hread
  · rename_i hfind
    rw [hfind]
    rfl
  · cases hread

example : ¬ ((FileTree.directory [("a.js", .file (.ok "") false)]).fileSystem
    ⟨"/"⟩).loader.Fixed := by
  intro fixed
  have hsame := congrArg Id.run (fixed.isFile_same ⟨"/a.js"⟩ ⟨"/a.js/"⟩ (by decide))
  revert hsame
  decide

/-! ## Questions about specifiers -/

namespace Knowledge

variable {a b : Loader Id}

theorem ask_follows (root : Option Path) (question : Question) :
    FollowsInKnowledge a b (ask a root question) (ask b root question) := by
  cases question with
  | probe path => exact (isFile_follows path).bind fun _ => .pure _
  | load path => exact (load_follows path).bind fun _ => .pure _
  | read path =>
      exact (withSources_follows (SourceCache.readFresh_follows path)).bind fun _ => .pure _
  | manifest directory => exact (manifestFor_follows root directory).bind fun _ => .pure _
  | config directory => exact (configFor_follows root directory).bind fun _ => .pure _
  | target boundary depth target config =>
      exact (Classifier.lookup_follows _ depth target config).bind fun _ => .pure _
  | specifier workspace boundary file text =>
      exact (Classifier.classify_follows _ file text).bind fun _ => .pure _

theorem askAll_follows (root : Option Path) (past : List Question) :
    FollowsInKnowledge a b (askAll a root past) (askAll b root past) := by
  induction past with
  | nil => exact .pure _
  | cons question rest ih => exact (ask_follows root question).bind fun _ => ih

/-- A specifier means what the first rule finds over a fixed loader, if that answers as the loader
does all that was asked. -/
theorem firstMatch_over (fixed : b.Fixed) (s : Surroundings) (past : List Question)
    (file : SourceFile) (specifier : String)
    (h : ∀ access ∈ (runAfter a s.root past
      (Classifier.classify a s file specifier)).run.2.sources.journal, a.AnswersAs b access) :
    b.FirstMatch s file specifier
      (valueAfter a s.root past (Classifier.classify a s file specifier)) := by
  have hfollows := (askAll_follows (a := a) (b := b) s.root past).bind fun _ =>
    Classifier.classify_follows s file specifier
  have hrun : runAfter a s.root past (Classifier.classify a s file specifier)
      = runAfter b s.root past (Classifier.classify b s file specifier) := hfollows.agrees {} h
  rw [valueAfter, hrun]
  exact Loader.firstMatch_of_meaning fixed (valueAfter_classify fixed past file specifier)

end Knowledge

/-! ## Traversals -/

namespace Session

variable {s : Session Id} {other : Loader Id} {calls : List (Call Id)} {entrypoint : Path}

section

variable (fixed : other.Fixed) (h : s.Answered other calls (s.collect entrypoint))

include fixed h

/-- A run over a disk finds what the walk without memory finds over a fixed loader. -/
theorem Answered.alike : Alike Reach.Alike ((s.collect entrypoint).run (s.memoryAfter calls)).run.1
    ((s.withLoader other).collectPlain entrypoint) := by
  have hfixed : (s.withLoader other).loader.Fixed := fixed
  rw [h.collect_eq]
  exact collect_memoryAfter hfixed calls entrypoint

/-- What a traversal reaches and what it reports are what can be reached and what is wrong over the
other loader. -/
theorem Answered.reaches_and_reports (unlimited : s.options.fileLimit = none) {reach : Reach}
    (hreach : ((s.collect entrypoint).run (s.memoryAfter calls)).run.1 = .ok reach) :
    reach.entrypoint.path.same entrypoint.normalize ∧
      (s.withLoader other).ReachesInOrder reach.entrypoint.path reach.files ∧
      (s.withLoader other).ReportsProblems (reach.entrypoint :: reach.files) reach ∧
      (s.options.checksModules = false → reach.unsupported = []) ∧
      ((∃ resolved, ((s.resolve entrypoint).run (s.memoryAfter calls)).run.1 = .ok resolved) ↔
        reach.missing = [] ∧ reach.unsupported = [] ∧ reach.failures = []) := by
  have hfixed : (s.withLoader other).loader.Fixed := fixed
  have hunlimited : (s.withLoader other).options.fileLimit = none := unlimited
  have halike := h.alike fixed
  rw [hreach] at halike
  obtain ⟨hentry, hreaches⟩ := reachesInOrder_of_alike hfixed hunlimited halike
  obtain ⟨hreports, hoff⟩ := reportsProblems_of_alike hfixed hunlimited halike
  refine ⟨hentry, hreaches, hreports, hoff, ?_⟩
  rw [resolve_of_collect hreach]
  exact validate_isOk_iff reach

/-- The past does not show, if the run of a fresh session was answered so, too. -/
theorem Answered.forgets_past (hfresh : s.Answered other [] (s.collect entrypoint)) :
    Alike Reach.Alike ((s.collect entrypoint).run (s.memoryAfter calls)).run.1
      ((s.collect entrypoint).run {}).run.1 := by
  have hstart : s.memoryAfter [] = {} := rfl
  have halike := hfresh.alike fixed
  rw [hstart] at halike
  exact (h.alike fixed).of_common halike Reach.Alike.of_common

end

/-- A file that includes nothing is asked for once, under the spelling that its path has. -/
theorem answered_plainly_of_leaf {file : SourceFile} (hnormal : file.path.normalize = file.path)
    (hread : s.loader.read file.path = pure (.ok file.contents))
    (hextract : s.extractor file = .ok (.specifiers [])) :
    s.Answered s.loader.plainly [] (s.collect file.path) := by
  have hplain : Path.ofParts file.path.parts = file.path := by
    conv => lhs; rw [← hnormal, Path.parts_normalize_eq]
    exact hnormal
  have hvisit : (s.visit file ⟨{ entrypoint := file }, [file.path.parts], []⟩).run
      ⟨knowledgeWith {} file, ∅⟩ = _ := run_visit_leaf _ (by simp) hextract
  have hrun : (s.collect file.path).run {} = _ := run_collect_new hnormal (by simp) hread
    ((run_traverse_visit _ rfl hvisit).trans (run_traverse_done _ rfl))
  have hstart : s.memoryAfter [] = {} := rfl
  refine ⟨rfl, fun access haccess => ?_⟩
  rw [hstart, hrun] at haccess
  have hone : access = .read file.path := by
    simpa [knowledgeWith, SourceCache.withLoaded] using haccess
  rw [hone]
  show s.loader.read file.path = s.loader.read (.ofParts file.path.parts)
  rw [hplain]

end Session

end ModuleTrace
