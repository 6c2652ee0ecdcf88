import Mathlib.Data.List.Forall2
import ModuleTrace.Proofs.Path.Spelling
import ModuleTrace.Resolution.Classifier

/-!
# Alike descriptors and candidates

A file may be met under several spellings, and descriptors found from it keep the spelling.
Descriptors are alike when they differ in nothing else, and then they lead to the same candidates,
one by one and up to spelling.
-/

namespace ModuleTrace

open ModuleTrace.Path (Interchangeable SameShape)

/-! ## Candidates -/

namespace Candidate

def Alike : Candidate → Candidate → Prop
  | .file p, .file q => p.parts = q.parts
  | .manifest p, .manifest q => p.parts = q.parts
  | _, _ => False

theorem added_alike {p q : Path} (h : Interchangeable p q) :
    List.Forall₂ Alike (added p) (added q) := by
  rw [added, added, List.forall₂_map_left_iff, List.forall₂_map_right_iff, List.forall₂_same]
  exact fun extension _ => h.append extension

theorem withoutExtension_alike {p q : Path} (h : Interchangeable p q) :
    List.Forall₂ Alike (withoutExtension p) (withoutExtension q) := by
  refine List.rel_append (added_alike h) (.cons ?_ (added_alike ?_))
  · exact Path.parts_div_congr h.parts "package.json"
  · exact Path.join_interchangeable h.parts ⟨"index"⟩

theorem slash_notMem_substitutions :
    ∀ entry ∈ substitutions, ∀ source ∈ entry.2, '/' ∉ source.toList ∧ source ≠ "" := by
  decide

theorem of_alike {p q : Path} (h : SameShape p q) : List.Forall₂ Alike (of p) (of q) := by
  unfold of
  rw [Path.extension?_congr h.parts]
  cases q.extension? with
  | none => exact withoutExtension_alike h.behind
  | some extension =>
      simp only
      cases hsources : substitutions.lookup extension with
      | some sources =>
          obtain ⟨before, after, htable, _⟩ := List.lookup_eq_some_iff.1 hsources
          have hmem : (extension, sources) ∈ substitutions := by simp [htable]
          simp only
          rw [List.forall₂_map_left_iff, List.forall₂_map_right_iff, List.forall₂_same]
          intro source hsource
          obtain ⟨hslash, hne⟩ := slash_notMem_substitutions _ hmem source hsource
          exact Path.withExtension_congr hslash hne h.cutOff
      | none =>
          simp only
          split
          · exact .cons h.parts .nil
          · exact .cons h.parts (withoutExtension_alike h.behind)

end Candidate

/-! ## Manifests -/

namespace Manifest

structure Alike (a b : Manifest) : Prop where
  path : a.path.parts = b.path.parts
  name : a.name = b.name
  entries : a.entries = b.entries
  hasExports : a.hasExports = b.hasExports
  workspaces : a.workspaces = b.workspaces

theorem parse?_alike {p q : Path} (h : p.parts = q.parts) (contents : String) :
    Option.Rel Alike (parse? contents p) (parse? contents q) := by
  unfold parse?
  cases Json.parse? contents with
  | none => exact .none
  | some json => exact .some ⟨h, rfl, rfl, rfl, rfl⟩

end Manifest

theorem Path.parts_getD_parent? {p q : Path} (h : p.parts = q.parts) (other : Path) :
    (p.parent?.getD other).parts = (q.parent?.getD other).parts := by
  have hrel := Path.parent?_congr h
  revert hrel
  cases p.parent? <;> cases q.parent? <;> rintro (_ | _) <;> simp_all

theorem Manifest.Alike.relativePath {a b : Manifest} (h : a.Alike b) (specifier : String) :
    (a.relativePath specifier).normalize = (b.relativePath specifier).normalize := by
  have hdirectory : a.directory.parts = b.directory.parts := Path.parts_getD_parent? h.path _
  unfold Manifest.relativePath
  rw [h.name]
  split
  · exact Path.normalize_div_congr hdirectory specifier
  · split
    · exact Path.normalize_congr hdirectory
    · split
      · exact Path.normalize_div_congr hdirectory _
      · exact Path.normalize_div_congr hdirectory _

/-! ## Aliases -/

structure AliasTarget.Alike (a b : AliasTarget) : Prop where
  raw : a.raw = b.raw
  start : Interchangeable a.start b.start
  stop : a.stop = b.stop
  hasWildcard : a.hasWildcard = b.hasWildcard

structure AliasCandidate.Alike (a b : AliasCandidate) : Prop where
  pattern : a.pattern = b.pattern
  target : a.target = b.target
  path : a.path.parts = b.path.parts

namespace Alias

structure Alike (a b : Alias) : Prop where
  text : a.text = b.text
  pattern : a.pattern = b.pattern
  targets : List.Forall₂ AliasTarget.Alike a.targets b.targets

theorem of_alike {base other : Path} (h : base.parts = other.parts) (text : String)
    (targets : List String) : Alike (of base text targets) (of other text targets) := by
  refine ⟨rfl, rfl, ?_⟩
  show List.Forall₂ _ (targets.map _) (targets.map _)
  rw [List.forall₂_map_left_iff, List.forall₂_map_right_iff, List.forall₂_same]
  exact fun raw _ => ⟨rfl, Path.join_interchangeable h _, rfl, rfl⟩

/-- The order of aliases does not depend on their base. -/
theorem order_alike {base other : Path} (h : base.parts = other.parts)
    (entries : List (String × List String)) :
    List.Forall₂ Alike (order (entries.map fun (pattern, targets) => of base pattern targets))
      (order (entries.map fun (pattern, targets) => of other pattern targets)) := by
  have hmap : ∀ b : Path, order (entries.map fun (pattern, targets) => of b pattern targets)
      = (entries.mergeSort fun x y => precedes (of base x.1 x.2) (of base y.1 y.2)).map
          fun (pattern, targets) => of b pattern targets := by
    intro b
    exact (List.map_mergeSort (s := precedes)
      (f := fun (entry : String × List String) => of b entry.1 entry.2)
      fun _ _ _ _ => rfl).symm
  rw [hmap, hmap, List.forall₂_map_left_iff, List.forall₂_map_right_iff, List.forall₂_same]
  exact fun entry _ => of_alike h entry.1 entry.2

theorem candidates_alike {a b : Alias} (h : a.Alike b) (specifier : String) :
    List.Forall₂ AliasCandidate.Alike (a.candidates specifier) (b.candidates specifier) := by
  unfold candidates
  rw [h.pattern]
  cases b.pattern.capture? specifier with
  | none => exact .nil
  | some captured =>
      refine List.rel_map (fun s t hst => ?_) h.targets
      refine ⟨h.text, hst.raw, ?_⟩
      simp only [AliasTarget.path, hst.hasWildcard, hst.stop]
      split
      · have := hst.start (captured.toList ++ t.stop.toList)
        simpa [Path.ofChars, String.append_assoc] using this
      · exact hst.start.parts

theorem allCandidates_alike {as bs : List Alias} (h : List.Forall₂ Alike as bs)
    (specifier : String) :
    List.Forall₂ AliasCandidate.Alike (allCandidates as specifier) (allCandidates bs specifier) :=
  List.rel_flatMap h fun _ _ hab => candidates_alike hab specifier

end Alias

/-! ## Project configurations -/

namespace ConfigOptions

structure Alike (a b : ConfigOptions) : Prop where
  baseUrl : a.baseUrl = b.baseUrl
  paths : Option.Rel (fun x y => x.1 = y.1 ∧ x.2.parts = y.2.parts) a.paths b.paths
  moduleResolution : a.moduleResolution = b.moduleResolution
  outDir : a.outDir = b.outDir
  rootDir : a.rootDir = b.rootDir
  rootDirs : a.rootDirs = b.rootDirs
  composite : a.composite = b.composite

theorem ofJson_alike {p q : Path} (h : p.parts = q.parts) (json : Json) :
    Alike (ofJson p json) (ofJson q json) := by
  have hlocated : (fun text : String => (p / text).normalize) = fun text => (q / text).normalize :=
    funext fun text => Path.normalize_div_congr h text
  unfold ofJson
  simp only [hlocated]
  refine ⟨rfl, ?_, rfl, rfl, rfl, rfl, rfl⟩
  cases (json.member? "paths").bind Json.object? with
  | none => exact .none
  | some members => exact .some ⟨rfl, h⟩

theorem extending_alike {a b : ConfigOptions} (h : a.Alike b) (inherited : ConfigOptions) :
    Alike (a.extending inherited) (b.extending inherited) := by
  unfold extending
  refine ⟨by simp [h.baseUrl], ?_, by simp [h.moduleResolution], by simp [h.outDir],
    by simp [h.rootDir], by simp [h.rootDirs], by simp [h.composite]⟩
  have hpaths := h.paths
  generalize a.paths = own, b.paths = other at hpaths ⊢
  cases hpaths with
  | some hpaths => exact .some hpaths
  | none =>
      cases inherited.paths with
      | none => exact .none
      | some paths => exact .some ⟨rfl, rfl⟩

end ConfigOptions

namespace ProjectConfig

structure Alike (a b : ProjectConfig) : Prop where
  path : a.path.parts = b.path.parts
  baseUrl : a.baseUrl = b.baseUrl
  aliases : List.Forall₂ Alias.Alike a.aliases b.aliases
  moduleResolution : a.moduleResolution = b.moduleResolution
  outDir : a.outDir = b.outDir
  rootDir : a.rootDir = b.rootDir
  rootDirs : a.rootDirs = b.rootDirs
  composite : a.composite = b.composite

theorem Alike.refl (config : ProjectConfig) : config.Alike config := by
  have htargets : ∀ a : Alias, a.Alike a := fun a =>
    ⟨rfl, rfl, List.forall₂_same.2 fun target _ => ⟨rfl, .refl target.start, rfl, rfl⟩⟩
  exact ⟨rfl, rfl, List.forall₂_same.2 fun a _ => htargets a, rfl, rfl, rfl, rfl, rfl⟩

theorem alike_self (config : Option ProjectConfig) : Option.Rel Alike config config := by
  cases config with
  | none => exact .none
  | some config => exact .some (.refl config)

theorem extendedPath?_congr {p q : Path} (h : p.parts = q.parts) (text : String) :
    extendedPath? p text = extendedPath? q text := by
  simp [extendedPath?, Path.normalize_div_congr h text]

theorem loadOptions_alike (read : Path → Id (Option String)) {p q : Path}
    (h : p.parts = q.parts) (depth : Nat) (contents : String) :
    Option.Rel ConfigOptions.Alike (loadOptions read depth p contents).run.toOption
      (loadOptions read depth q contents).run.toOption := by
  have hdirectory : (directoryOf p).parts = (directoryOf q).parts := Path.parts_getD_parent? h _
  unfold loadOptions
  cases Json.parse? (Json.strict contents) with
  | none => exact .none
  | some json =>
      have hown := ConfigOptions.ofJson_alike hdirectory
        ((json.member? "compilerOptions").getD .null)
      have hparents : (extensions json).filterMap (extendedPath? (directoryOf p))
          = (extensions json).filterMap (extendedPath? (directoryOf q)) := by
        simp [funext (extendedPath?_congr hdirectory)]
      cases depth with
      | zero => exact .some hown
      | succ depth =>
          simp only [hparents]
          exact .some (ConfigOptions.extending_alike hown _)

theorem aliasesOf_alike {a b : ConfigOptions} (h : a.Alike b) :
    List.Forall₂ Alias.Alike (aliasesOf a) (aliasesOf b) := by
  unfold aliasesOf
  have hpaths := h.paths
  generalize a.paths = own, b.paths = other at hpaths ⊢
  cases hpaths with
  | none => exact .nil
  | @some x y hxy =>
      obtain ⟨entries, directory⟩ := x
      obtain ⟨_, other⟩ := y
      obtain ⟨rfl, hdirectory⟩ := hxy
      refine Alias.order_alike ?_ entries
      rw [h.baseUrl]
      cases b.baseUrl with
      | none => exact hdirectory
      | some base => rfl

theorem load_alike {read : Path → Id (Option String)} {p q : Path} (h : p.parts = q.parts)
    (hread : read p = read q) :
    Option.Rel Alike (load read p).run.toOption (load read q).run.toOption := by
  have hload : ∀ path, (load read path).run.toOption = (read path).run.bind fun contents =>
      (loadOptions read extensionDepth path contents).run.toOption.map (ofOptions path) := by
    intro path
    cases hcontents : (read path).run with
    | none => simp [load, hcontents, Except.toOption]
    | some contents =>
        cases hoptions : (loadOptions read extensionDepth path contents).run <;>
          simp [load, parseWith, hcontents, hoptions, Except.toOption]
  rw [hload, hload, hread]
  cases (read q).run with
  | none => exact .none
  | some contents =>
      have hoptions := loadOptions_alike read h extensionDepth contents
      simp only [Option.bind_some]
      generalize (loadOptions read extensionDepth p contents).run.toOption = x,
        (loadOptions read extensionDepth q contents).run.toOption = y at hoptions ⊢
      cases hoptions with
      | none => exact .none
      | @some a b hab =>
          exact .some ⟨h, hab.baseUrl, aliasesOf_alike hab,
            by simp [ofOptions, hab.moduleResolution], hab.outDir, hab.rootDir,
            by simp [ofOptions, hab.rootDirs], by simp [ofOptions, hab.composite]⟩

/-! ## Places of sources -/

theorem dropRepeats_alike {R : Path → Path → Prop} (hparts : ∀ p q, R p q → p.parts = q.parts)
    {ps qs : List Path} (h : List.Forall₂ R ps qs) :
    List.Forall₂ R (dropRepeats ps) (dropRepeats qs) := by
  induction h with
  | nil => exact .nil
  | @cons p q ps qs hpq _ ih =>
      unfold dropRepeats
      generalize dropRepeats ps = kept, dropRepeats qs = other at ih ⊢
      cases ih with
      | nil => exact .cons hpq .nil
      | @cons p' q' kept kept' hhead htail =>
          have hsame : p.same p' = q.same q' := by
            rw [Path.same, Path.same, hparts p q hpq, hparts p' q' hhead]
          simp only [hsame]
          split
          · exact .cons hpq htail
          · exact .cons hpq (.cons hhead htail)

theorem directory_join_sameShape {a b : ProjectConfig} (h : a.Alike b) (relative : Path) :
    SameShape (a.directory.join relative) (b.directory.join relative) := by
  have hrel := Path.parent?_congr h.path
  unfold directory directoryOf
  cases ha : a.path.parent? with
  | none =>
      cases hb : b.path.parent? with
      | none => exact .refl _
      | some e => simp [ha, hb] at hrel
  | some d =>
      cases hb : b.path.parent? with
      | none => simp [ha, hb] at hrel
      | some e =>
          have hparts : d.parts = e.parts := by simpa [ha, hb] using hrel
          exact Path.join_parent_sameShape ha hb hparts relative

theorem sourcePaths_alike {a b : ProjectConfig} (h : a.Alike b) (path : Path) :
    List.Forall₂ SameShape (a.sourcePaths path) (b.sourcePaths path) := by
  unfold sourcePaths
  rw [h.outDir, h.rootDir, h.rootDirs]
  refine dropRepeats_alike (fun _ _ => SameShape.parts)
    (List.rel_append ?_ (.cons (.refl path) .nil))
  cases b.outDir.bind path.relativeTo? with
  | none => exact .nil
  | some relative =>
      simp only
      split
      · exact .cons (directory_join_sameShape h relative) .nil
      · rw [List.forall₂_same]
        exact fun place _ => .refl place

end ProjectConfig

theorem Classifier.probes_alike {config other : Option ProjectConfig}
    (h : Option.Rel ProjectConfig.Alike config other) (target : Path) :
    List.Forall₂ Candidate.Alike (probes target config) (probes target other) := by
  unfold probes
  refine List.rel_flatMap (R := SameShape) ?_ fun _ _ => Candidate.of_alike
  cases h with
  | none => exact .cons (.refl target) .nil
  | some hconfig => exact ProjectConfig.sourcePaths_alike hconfig target

end ModuleTrace
