import ModuleTrace.Proofs.Path.Descent
import ModuleTrace.Proofs.Path.Endings
import ModuleTrace.Proofs.Resolution.Confinement
import ModuleTrace.Proofs.Resolution.BareNames

/-!
# Spellings and candidates

Candidates are made of the text of a path. Extensions are written behind it, so a directory gives
the same candidates under two spellings only if these end alike; a slash behind its name turns the
files beside it into files in it. A file name is known by its extension, which is replaced wherever
it stands. A target that is the output directory itself is looked for in the directories of the
sources, and these get a slash behind their names on the way.
-/

namespace ModuleTrace

open ModuleTrace.Path (EndsLike Extends)

namespace Path

/-! ## A slash at the end -/

/-- Joined with nothing, a path gets a slash at its end if there is none. -/
theorem exists_text_join_empty {d : Path} (hd : d.text ≠ "") :
    ∃ cs, (d.join ⟨""⟩).text.toList = cs ++ ['/'] := by
  have hempty : (⟨""⟩ : Path).isAbsolute = false := rfl
  by_cases hlast : d.text.toList.getLast? = some '/'
  · obtain ⟨cs, hcs⟩ := List.getLast?_eq_some_iff.1 hlast
    exact ⟨cs, by simp [join, hempty, hcs]⟩
  · exact ⟨d.text.toList, by simp [join, hempty, hlast, hd]⟩

theorem ending_join_empty (d : Path) : (d.join ⟨""⟩).ending = [] := by
  by_cases hd : d.text = ""
  · obtain rfl : d = ⟨""⟩ := by cases d; simp_all
    rfl
  · obtain ⟨cs, hcs⟩ := exists_text_join_empty hd
    have hsplit : splitSlashes (d.join ⟨""⟩).text.toList = splitSlashes cs ++ [[]] := by
      rw [hcs, splitSlashes_append_slash]
      rfl
    exact ending_of_split hsplit

theorem endsInPart_join_empty (d : Path) : (d.join ⟨""⟩).endsInPart = false := by
  rw [endsInPart, ending_join_empty]
  rfl

/-- No slash stands behind a lone dot, so a path with a slash at its end ends like another one
exactly if that has one, too. -/
theorem join_empty_endsLike_iff (d : Path) : EndsLike (d.join ⟨""⟩) d ↔ d.ending = [] := by
  constructor
  · exact fun h => h.ending.symm.trans d.ending_join_empty
  · refine fun hd => ⟨d.ending_join_empty.trans hd.symm, fun hdot => ?_, fun hdot => ?_⟩
    · have hslash := d.ending_join_empty
      rw [show d.join ⟨""⟩ = ⟨"."⟩ from congrArg Path.mk hdot] at hslash
      exact absurd hslash (by decide)
    · rw [show d = ⟨"."⟩ from congrArg Path.mk hdot] at hd
      exact absurd hd (by decide)

theorem parts_join_empty (d : Path) : (d.join ⟨""⟩).parts = d.parts := by
  by_cases hd : d.text = ""
  · obtain rfl : d = ⟨""⟩ := by cases d; simp_all
    rfl
  · have h := parts_join hd (q := ⟨""⟩) rfl
    simpa using h

end Path

namespace Candidate

/-- Whether nothing but a dot stands before a compiled extension. -/
def losesStem (path : Path) : Bool :=
  substitutions.any fun entry => path.name? == some (".." ++ entry.1)

/-- Spellings of one path that give the same candidates: both end alike, or the name is that of a
file and its extension can be replaced in both. -/
def SpelledAlike (p q : Path) : Prop :=
  EndsLike p q ∨ isFileName p = true ∧ (losesStem p = true → p.endsInPart = q.endsInPart)

theorem SpelledAlike.refl (p : Path) : SpelledAlike p p :=
  .inl ⟨rfl, Iff.rfl⟩

theorem withoutExtension_alike_iff {p q : Path} (h : p.parts = q.parts) :
    List.Forall₂ Alike (withoutExtension p) (withoutExtension q) ↔ EndsLike p q := by
  constructor
  · intro halike
    have hadded : ∀ path, withoutExtension path = .file (path.append "ts") ::
        (withoutExtension path).tail := fun _ => rfl
    rw [hadded p, hadded q, List.forall₂_cons] at halike
    exact .of_append h ⟨by decide, by decide⟩ halike.1
  · exact fun hends => withoutExtension_alike (hends.interchangeable h)

theorem exists_splitName_of_extension {p : Path} {extension : String}
    (h : p.extension? = some extension) :
    ∃ name, p.name? = some name ∧ (Path.splitName name).2 = some extension :=
  Option.bind_eq_some_iff.1 h

theorem mem_substitutions_of_lookup {extension : String} {sources : List String}
    (h : substitutions.lookup extension = some sources) : (extension, sources) ∈ substitutions := by
  obtain ⟨before, after, htable, -⟩ := List.lookup_eq_some_iff.1 h
  simp [htable]

theorem splitName_of_losesStem {p : Path} (h : losesStem p = true) :
    ∃ entry ∈ substitutions, ∃ name, p.name? = some name ∧
      Path.splitName name = (".", some entry.1) := by
  have hcut : ∀ entry ∈ substitutions, Path.splitName (".." ++ entry.1) = (".", some entry.1) := by
    decide
  simp only [losesStem, List.any_eq_true, beq_iff_eq] at h
  obtain ⟨entry, hentry, hname⟩ := h
  exact ⟨entry, hentry, _, hname, hcut entry hentry⟩

theorem losesStem_iff {p : Path} {name extension : String} {sources : List String}
    (hname : p.name? = some name) (hsplit : (Path.splitName name).2 = some extension)
    (hsources : substitutions.lookup extension = some sources) :
    losesStem p = true ↔ (Path.splitName name).1 = "." := by
  constructor
  · intro hloses
    obtain ⟨entry, -, other, hother, hcut⟩ := splitName_of_losesStem hloses
    obtain rfl : name = other := Option.some.inj (hname.symm.trans hother)
    rw [hcut]
  · intro hstem
    obtain ⟨-, -, htext⟩ := Path.splitName_eq_some hsplit
    rw [hstem] at htext
    have hwritten : name = ".." ++ extension := String.toList_inj.1 (by simp [htext])
    simp only [losesStem, List.any_eq_true, beq_iff_eq]
    exact ⟨_, mem_substitutions_of_lookup hsources, by rw [hname, hwritten]⟩

/-- Other extensions leave one path, but that the name is lost in one spelling only. -/
theorem withExtension_alike_iff {p q : Path} (h : p.parts = q.parts) {extension : String}
    {sources : List String} (hextension : p.extension? = some extension)
    (hsources : substitutions.lookup extension = some sources) :
    List.Forall₂ Alike (sources.map fun source => .file (p.withExtension source))
        (sources.map fun source => .file (q.withExtension source)) ↔
      (losesStem p = true → p.endsInPart = q.endsInPart) := by
  obtain ⟨name, hname, hsplit⟩ := exists_splitName_of_extension hextension
  have hmem := mem_substitutions_of_lookup hsources
  have hwritten : ∀ entry ∈ substitutions, entry.1 ≠ "" ∧ entry.2 ≠ [] := by decide
  obtain ⟨hne, hsome⟩ := hwritten _ hmem
  have hparts : ∀ source ∈ sources, (p.withExtension source).parts = (q.withExtension source).parts
      ↔ (losesStem p = true → p.endsInPart = q.endsInPart) := by
    intro source hsource
    have hextends := extends_of_lookup hsources hsource
    rw [Path.parts_withExtension_of_name hname hsplit hne hextends,
      Path.parts_withExtension_of_name (Path.name?_congr h ▸ hname) hsplit hne hextends, ← h,
      List.append_cancel_left_eq, losesStem_iff hname hsplit hsources]
    cases hp : p.endsInPart <;> cases hq : q.endsInPart <;>
      by_cases hstem : (Path.splitName name).1 = "." <;> simp [hstem]
  rw [List.forall₂_map_left_iff, List.forall₂_map_right_iff, List.forall₂_same]
  constructor
  · obtain ⟨source, hsource⟩ := List.exists_mem_of_ne_nil sources hsome
    exact fun halike => (hparts source hsource).1 (halike source hsource)
  · exact fun hends source hsource => (hparts source hsource).2 hends

/-- When two spellings of one path give the same candidates. -/
theorem of_alike_iff {p q : Path} (h : p.parts = q.parts) :
    List.Forall₂ Alike (of p) (of q) ↔ SpelledAlike p q := by
  unfold SpelledAlike of isFileName
  rw [← Path.extension?_congr h]
  cases hextension : p.extension? with
  | none => simp [withoutExtension_alike_iff h]
  | some extension =>
      simp only
      cases hsources : substitutions.lookup extension with
      | some sources =>
          have halike := withExtension_alike_iff h hextension hsources
          simp only [halike, Option.isSome_some, Bool.true_or, true_and]
          exact ⟨.inr, fun hspelled hloses => hspelled.elim (fun hends => hends.endsInPart)
            fun hends => hends hloses⟩
      | none =>
          cases hsource : sourceExtensions.contains extension with
          | true =>
              have hkeeps : losesStem p = false := by
                rw [← Bool.not_eq_true]
                intro hloses
                obtain ⟨entry, hentry, name, hname, hcut⟩ := splitName_of_losesStem hloses
                have htable : ∀ entry ∈ substitutions, substitutions.lookup entry.1 ≠ none := by
                  decide
                obtain rfl : entry.1 = extension := by
                  simpa [Path.extension?, hname, hcut] using hextension
                exact htable entry hentry hsources
              simp [hkeeps, h, Alike]
          | false => simp [h, Alike, withoutExtension_alike_iff h]

/-- A slash behind a directory leaves the candidates as they were if there was one already, or if
the directory has the name of a file. -/
theorem slash_spelledAlike_iff (d : Path) :
    SpelledAlike (d.join ⟨""⟩) d ↔
      d.ending = [] ∨ isFileName d = true ∧ (losesStem d = true → d.endsInPart = false) := by
  have hparts := d.parts_join_empty
  have hloses : losesStem (d.join ⟨""⟩) = losesStem d := by
    rw [losesStem, losesStem, Path.name?_congr hparts]
  rw [SpelledAlike, Path.join_empty_endsLike_iff, isFileName_congr hparts, hloses,
    Path.endsInPart_join_empty, eq_comm (a := false)]

end Candidate

/-! ## The output directory as a target -/

namespace ProjectConfig

variable {config : ProjectConfig} {output target : Path}

theorem sourcePaths_of_output (houtput : config.outDir = some output)
    (htarget : target.parts = output.parts) :
    config.sourcePaths target
      = dropRepeats (config.sourceRoots.map (fun root => root.join ⟨""⟩) ++ [target]) := by
  unfold sourcePaths sourceRoots
  rw [houtput, Option.bind_some, Path.relativeTo?_same htarget]
  simp only
  cases config.rootDir.toList ++ config.rootDirs with
  | nil => simp only [List.map_cons, List.map_nil]
  | cons root roots => simp only

end ProjectConfig

namespace Classifier

open Candidate (SpelledAlike)

variable {config : ProjectConfig} {output target : Path}

theorem probes_alike_of_spelledAlike (houtput : config.outDir = some output)
    (htarget : target.parts = output.parts)
    (hroots : ∀ root ∈ config.sourceRoots, SpelledAlike (root.join ⟨""⟩) root) :
    List.Forall₂ Candidate.Alike (probes target (some config))
      ((ProjectConfig.dropRepeats (config.sourceRoots ++ [target])).flatMap Candidate.of) := by
  rw [probes, ProjectConfig.sourcePaths_of_output houtput htarget]
  have hsame : List.Forall₂ (fun p q : Path => p.parts = q.parts ∧ SpelledAlike p q)
      (config.sourceRoots.map (fun root => root.join ⟨""⟩) ++ [target])
      (config.sourceRoots ++ [target]) := by
    refine List.rel_append ?_ (.cons ⟨rfl, .refl target⟩ .nil)
    rw [List.forall₂_map_left_iff, List.forall₂_same]
    exact fun root hroot => ⟨root.parts_join_empty, hroots root hroot⟩
  exact List.rel_flatMap (ProjectConfig.dropRepeats_alike (fun _ _ h => h.1) hsame)
    fun _ _ h => (Candidate.of_alike_iff h.1).2 h.2

/-- Two spellings of one path give the same candidates exactly if both end alike or the path names
a file. A target that is the output directory has the candidates of the directories of the sources,
these with a slash at their ends, and then its own. -/
theorem candidates_of_spellings {p q : Path} (hparts : p.parts = q.parts) (config : ProjectConfig) :
    (List.Forall₂ Candidate.Alike (Candidate.of p) (Candidate.of q) ↔ SpelledAlike p q) ∧
    ∀ output, config.outDir = some output → p.parts = output.parts →
      probes p (some config) = (ProjectConfig.dropRepeats
        (config.sourceRoots.map (fun root => root.join ⟨""⟩) ++ [p])).flatMap Candidate.of ∧
      (∀ root ∈ config.sourceRoots,
        (List.Forall₂ Candidate.Alike (Candidate.of (root.join ⟨""⟩)) (Candidate.of root) ↔
          root.ending = [] ∨ Candidate.isFileName root = true ∧
            (Candidate.losesStem root = true → root.endsInPart = false))) ∧
      ((∀ root ∈ config.sourceRoots, SpelledAlike (root.join ⟨""⟩) root) →
        List.Forall₂ Candidate.Alike (probes p (some config))
          ((ProjectConfig.dropRepeats (config.sourceRoots ++ [p])).flatMap Candidate.of)) := by
  refine ⟨Candidate.of_alike_iff hparts, fun output houtput htarget =>
    ⟨?_, fun root _ => ?_, probes_alike_of_spelledAlike houtput htarget⟩⟩
  · rw [probes, ProjectConfig.sourcePaths_of_output houtput htarget]
  · rw [Candidate.of_alike_iff root.parts_join_empty, Candidate.slash_spelledAlike_iff]

def rootedConfig : ProjectConfig :=
  .ofOptions ⟨"/tsconfig.json"⟩ { outDir := some ⟨"/dist"⟩, rootDir := some ⟨"/"⟩ }

theorem candidates_of_spellings_rooted :
    List.Forall₂ Candidate.Alike (Candidate.of ⟨"/dist"⟩) (Candidate.of ⟨"//dist"⟩) ∧
      List.Forall₂ Candidate.Alike (probes ⟨"/dist"⟩ (some rootedConfig))
        ((ProjectConfig.dropRepeats [⟨"/"⟩, ⟨"/dist"⟩]).flatMap Candidate.of) := by
  obtain ⟨hspellings, houtput⟩ := candidates_of_spellings
    (by decide : (⟨"/dist"⟩ : Path).parts = (⟨"//dist"⟩ : Path).parts) rootedConfig
  refine ⟨hspellings.2 (.inl ⟨by decide, by decide⟩),
    (houtput ⟨"/dist"⟩ rfl rfl).2.2 fun root hroot => ?_⟩
  obtain rfl : root = ⟨"/"⟩ := List.mem_singleton.1 hroot
  exact .inl ⟨by decide, by decide⟩

/-- Sources in a directory that is not known for a file by its name. -/
def plainConfig : ProjectConfig :=
  .ofOptions ⟨"/p/tsconfig.json"⟩ { outDir := some ⟨"/p/dist"⟩, rootDir := some ⟨"/p/src"⟩ }

theorem candidates_misspelled :
    (⟨"/p/src"⟩ : Path).parts = (⟨"/p/src/"⟩ : Path).parts ∧
      ¬ List.Forall₂ Candidate.Alike (Candidate.of ⟨"/p/src"⟩) (Candidate.of ⟨"/p/src/"⟩) ∧
      .file ⟨"/p/src.ts"⟩ ∈ Candidate.of ⟨"/p/src"⟩ ∧
      ∀ candidate ∈ probes ⟨"/p/dist"⟩ (some plainConfig),
        candidate.path.parts ≠ (⟨"/p/src.ts"⟩ : Path).parts := by
  have hparts : (⟨"/p/src"⟩ : Path).parts = (⟨"/p/src/"⟩ : Path).parts := by decide
  refine ⟨hparts, fun halike => ?_, by decide +kernel, by decide +kernel⟩
  rcases (Candidate.of_alike_iff hparts).1 halike with hends | ⟨hname, -⟩
  · exact absurd hends.ending (by decide)
  · exact absurd hname (by decide)

end Classifier

end ModuleTrace
