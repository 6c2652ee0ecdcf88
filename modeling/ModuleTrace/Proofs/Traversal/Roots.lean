import ModuleTrace.Proofs.Resolution.Roots
import ModuleTrace.Proofs.Traversal.Containment
import ModuleTrace.Settings

/-!
# The root of a project

Settings name a root relative to the project, and the path put together from both is taken as it
is written. Where it has no steps up, a session works as if it were written without dots. Where it
has some it is no directory that is ever met: nothing ends a search for descriptors then, and a
restricted traversal finds no file.
-/

namespace ModuleTrace

namespace Session

section

variable {m : Type → Type} [Monad m]

def atRoot (s : Session m) (root : Option Path) : Session m :=
  { s with options := { s.options with root } }

variable (s : Session m) {root other : Option Path} (h : SameDirectory root other)

include h

omit [Monad m] in
theorem surroundings_atRoot (file : SourceFile) :
    ((s.atRoot root).surroundings file).Same ((s.atRoot other).surroundings file) := by
  refine ⟨h, rfl, ?_⟩
  unfold surroundings boundary atRoot
  simp only
  split
  · split
    · exact rfl
    · exact h
  · exact rfl

theorem classifyAll_atRoot (file : SourceFile) (specifiers : List String) :
    (s.atRoot root).classifyAll file specifiers = (s.atRoot other).classifyAll file specifiers := by
  have hclassify : ∀ specifier, Classifier.classify s.loader ((s.atRoot root).surroundings file)
      file specifier
        = Classifier.classify s.loader ((s.atRoot other).surroundings file) file specifier :=
    Classifier.classify_congr s.loader (s.surroundings_atRoot h file) file
  show specifiers.mapM (fun specifier => withKnowledge (Classifier.classify s.loader
    ((s.atRoot root).surroundings file) file specifier)) = _
  simp only [hclassify]
  rfl

theorem analyze_atRoot (file : SourceFile) :
    (s.atRoot root).analyze file = (s.atRoot other).analyze file := by
  unfold analyze
  simp only [s.classifyAll_atRoot h]
  rfl

omit h in
theorem meetAll_atRoot (paths : List Path) (frontier : Frontier) :
    (s.atRoot root).meetAll paths frontier = (s.atRoot other).meetAll paths frontier := by
  induction paths generalizing frontier with
  | nil => rfl
  | cons path rest ih =>
      unfold meetAll
      have hmeet : (s.atRoot root).meet frontier path = (s.atRoot other).meet frontier path := rfl
      simp only [hmeet, ih]

theorem visit_atRoot (file : SourceFile) (frontier : Frontier) :
    (s.atRoot root).visit file frontier = (s.atRoot other).visit file frontier := by
  have hnotes : (s.atRoot root).noteProblems = (s.atRoot other).noteProblems := rfl
  have hmeet : (s.atRoot root).meetAll = (s.atRoot other).meetAll :=
    funext fun paths => funext fun frontier => s.meetAll_atRoot paths frontier
  unfold visit
  simp only [s.analyze_atRoot h, hmeet, hnotes]

theorem traverse_atRoot (fuel : Nat) (frontier : Frontier) :
    (s.atRoot root).traverse fuel frontier = (s.atRoot other).traverse fuel frontier := by
  induction fuel generalizing frontier with
  | zero => rfl
  | succ fuel ih =>
      unfold traverse
      simp only [s.visit_atRoot h, ih]

/-- A session does the same under two spellings of its root. -/
theorem collect_atRoot (entrypoint : Path) :
    (s.atRoot root).collect entrypoint = (s.atRoot other).collect entrypoint := by
  have hload : (s.atRoot root).load = (s.atRoot other).load := rfl
  have hextent : (s.atRoot root).loader.extent = (s.atRoot other).loader.extent := rfl
  unfold collect
  simp only [s.traverse_atRoot h, hload, hextent]

end

end Session

/-! ## Roots with steps up -/

namespace Knowledge

variable {m : Type → Type} [Monad m] {α : Type} {root : Path} (hup : .up ∈ root.parts)

include hup

/-- A root with steps up does not end the search from a directory without any. -/
theorem nearest_at_up (kind : Kind m α) {directory : Path} (hclean : directory.Clean) :
    nearest kind (some root) directory = nearest kind none directory := by
  refine nearest_congr kind directory fun d hd => ?_
  have hne : d.parts ≠ root.parts := by
    intro hsame
    have hd := (hclean.of_mem_ancestors hd).no_up
    rw [hsame] at hd
    exact hd hup
  simp [Path.same, hne]

end Knowledge

namespace Session

section

variable {m : Type → Type} [Monad m] [LawfulMonad m] {s : Session m} {root : Path}

/-- A restricted session whose root has steps up finds no file but its entrypoint. -/
theorem collect_at_up (hup : .up ∈ root.parts) (hw : s.workspace = none)
    (hroot : s.options.root = some root) (restricted : s.options.isRestricted = true)
    (calls : List (Call m)) {e : Path} (absolute : e.isAbsolute = true) :
    Always (fun result => ∀ reach, result.1 = .ok reach → reach.files = [])
      ((do s.performAll calls; s.collect e).run {}) := by
  have hstart : e.normalize.NearlyClean := (Path.clean_normalize absolute).nearly
  have hcontained := collect_contained (rootZone restricted hw hroot) hstart calls
  refine hcontained.mono fun result h reach hreach => ?_
  have hstays := staysInRoot_of_contains restricted hw hroot (h reach hreach)
  rw [List.eq_nil_iff_forall_not_mem]
  intro file hfile
  obtain ⟨hclean, hunder⟩ := hstays file hfile
  exact hclean (((Path.isUnder_iff _ _).1 hunder).subset hup)

/-! ## The root that settings name -/

def configured (loader : Loader m) (extractor : Extractor) (settings : Settings)
    (project : Path) : Session m :=
  ⟨loader, extractor, settings.options project, none⟩

/-- The root of a project that has no steps up means the directory that it names. One with steps
up ends no search for descriptors, and restricts a traversal to nothing. -/
theorem root_as_written (loader : Loader m) (extractor : Extractor) {settings : Settings}
    (project : Path) {written : Path} (hroot : settings.root = some written) :
    ((project.join written).IsNormal →
      (∀ e, (configured loader extractor settings project).collect e
        = ((configured loader extractor settings project).atRoot
            (some (project.join written).normalize)).collect e) ∧
      ∀ d, Knowledge.manifestFor loader (settings.options project).root d
          = Knowledge.manifestFor loader (some (project.join written).normalize) d ∧
        Knowledge.configFor loader (settings.options project).root d
          = Knowledge.configFor loader (some (project.join written).normalize) d) ∧
    (project.isAbsolute = true → ¬ (project.join written).IsNormal →
      (∀ d : Path, d.isAbsolute = true → d.IsNormal →
        Knowledge.manifestFor loader (settings.options project).root d
          = Knowledge.manifestFor loader none d ∧
        Knowledge.configFor loader (settings.options project).root d
          = Knowledge.configFor loader none d) ∧
      (settings.isRestricted = true → ∀ calls (e : Path), e.isAbsolute = true →
        Always (fun result => ∀ reach, result.1 = .ok reach → reach.files = [])
          ((do
            (configured loader extractor settings project).performAll calls
            (configured loader extractor settings project).collect e).run {}))) := by
  have hjoined : (settings.options project).root = some (project.join written) := by
    simp [Settings.options, hroot]
  constructor
  · intro hnormal
    have hsame : SameDirectory (settings.options project).root
        (some (project.join written).normalize) := by
      rw [hjoined]
      exact congrArg some hnormal.symm
    refine ⟨fun e => ?_, fun d => ⟨?_, ?_⟩⟩
    · exact collect_atRoot (configured loader extractor settings project) hsame e
    · exact Knowledge.manifestFor_congr hsame loader d
    · exact Knowledge.configFor_congr hsame loader d
  · intro habsolute hnormal
    have hup := Path.up_mem_of_not_isNormal (Path.isAbsolute_join habsolute) hnormal
    rw [hjoined]
    refine ⟨fun d hd hdnormal => ?_, fun restricted calls e he => ?_⟩
    · have hclean := Path.clean_of_isNormal hd hdnormal
      exact ⟨Knowledge.nearest_at_up hup _ hclean, Knowledge.nearest_at_up hup _ hclean⟩
    · exact collect_at_up hup rfl hjoined restricted calls he

end

def rooted (written : Path) : Settings :=
  { isRestricted := true, root := some written }

def besides (written : Path) : Session Id :=
  configured (.ofTexts [([.root, .name "w", .name "a.js"], "a"),
    ([.root, .name "w", .name "b.js"], "")]) (.ofTexts [("a", .specifiers ["./b"])])
    (rooted written) ⟨"/w/sub"⟩

theorem root_as_written_dots :
    (rooted ⟨"./lib//"⟩).root = some ⟨"./lib//"⟩ ∧ ((Path.mk "/w/sub").join ⟨"./lib//"⟩).IsNormal ∧
      (besides ⟨"./lib//"⟩).collect ⟨"/w/a.js"⟩
        = ((besides ⟨"./lib//"⟩).atRoot (some ⟨"/w/sub/lib"⟩)).collect ⟨"/w/a.js"⟩ ∧
      (rooted ⟨".."⟩).root = some ⟨".."⟩ ∧ (Path.mk "/w/sub").isAbsolute = true ∧
      ¬ ((Path.mk "/w/sub").join ⟨".."⟩).IsNormal ∧
      Knowledge.manifestFor (besides ⟨".."⟩).loader (besides ⟨".."⟩).options.root ⟨"/w/sub"⟩
        = Knowledge.manifestFor (besides ⟨".."⟩).loader none ⟨"/w/sub"⟩ := by
  have hnormal : ((Path.mk "/w/sub").join ⟨"./lib//"⟩).IsNormal := by
    unfold Path.IsNormal
    decide
  have hdirectory : (Path.mk "/w/sub").IsNormal := by
    unfold Path.IsNormal
    decide
  have hup : ¬ ((Path.mk "/w/sub").join ⟨".."⟩).IsNormal := by
    unfold Path.IsNormal
    decide
  have habsolute : (Path.mk "/w/sub").isAbsolute = true := by decide
  have hdots := root_as_written (besides ⟨"./lib//"⟩).loader (besides ⟨"./lib//"⟩).extractor
    ⟨"/w/sub"⟩ (rfl : (rooted ⟨"./lib//"⟩).root = some ⟨"./lib//"⟩)
  have hsteps := root_as_written (besides ⟨".."⟩).loader (besides ⟨".."⟩).extractor
    ⟨"/w/sub"⟩ (rfl : (rooted ⟨".."⟩).root = some ⟨".."⟩)
  exact ⟨rfl, hnormal, (hdots.1 hnormal).1 _, rfl, habsolute, hup,
    ((hsteps.2 habsolute hup).1 _ habsolute hdirectory).1⟩

/-- A root with a step up hides a file that the directory it names holds. -/
theorem root_as_written_up :
    (besides ⟨".."⟩).options.root.map Path.normalize = some ⟨"/w"⟩ ∧
      (∃ reach, (((besides ⟨".."⟩).collect ⟨"/w/a.js"⟩).run {}).run.1 = .ok reach ∧
        reach.files = []) ∧
      ∃ reach, ((((besides ⟨".."⟩).atRoot (some ⟨"/w"⟩)).collect ⟨"/w/a.js"⟩).run {}).run.1
        = .ok reach ∧ reach.files.length = 1 := by
  have hnone : ((besides ⟨".."⟩).collectPlain ⟨"/w/a.js"⟩).toOption.map
      (fun reach => reach.files.map SourceFile.path) = some [] := by decide +kernel
  have hone : (((besides ⟨".."⟩).atRoot (some ⟨"/w"⟩)).collectPlain ⟨"/w/a.js"⟩).toOption.map
      (fun reach => reach.files.map SourceFile.path) = some [⟨"/w/b.js"⟩] := by decide +kernel
  have fixed : (besides ⟨".."⟩).loader.Fixed := Loader.ofTexts_fixed _
  have fixed' : ((besides ⟨".."⟩).atRoot (some ⟨"/w"⟩)).loader.Fixed := fixed
  obtain ⟨reach, hreach, hfiles⟩ := exists_collect_files fixed [] hnone
  obtain ⟨other, hother, hfiles'⟩ := exists_collect_files fixed' [] hone
  exact ⟨by decide, ⟨reach, hreach, List.forall₂_nil_right_iff.1 hfiles⟩, other, hother,
    hfiles'.length_eq⟩

end Session

end ModuleTrace
