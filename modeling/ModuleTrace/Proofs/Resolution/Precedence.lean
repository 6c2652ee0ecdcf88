import ModuleTrace.Proofs.Path.Endings
import ModuleTrace.Proofs.Resolution.Confinement
import ModuleTrace.Proofs.Resolution.Restriction

/-!
# Sources before what is compiled from them

Wherever the path of a compiled file is listed, the paths of its sources stand before it, and so
the file is found only if there are no sources. This holds of the forms of one place, and lists
that are put together of such lists are such lists again, so it holds of what manifests lead to.
-/

namespace ModuleTrace

/-- Compiled extensions with the extensions of their sources. -/
def compiledExtensions : List (String × List String) :=
  [("js", ["ts", "tsx"]), ("mjs", ["mts"]), ("cjs", ["cts"]), ("jsx", ["tsx"])]

namespace Path

/-- A path with a compiled extension, and the same path with that of a source in its stead. -/
def CompiledFrom (p source : Path) : Prop :=
  ∃ entry ∈ compiledExtensions, p.extension? = some entry.1 ∧ ∃ other ∈ entry.2, ∃ before stem,
    p.parts = before ++ [.name (stem ++ "." ++ entry.1)] ∧
      source.parts = before ++ [.name (stem ++ "." ++ other)]

theorem CompiledFrom.congr {p q source : Path} (h : p.parts = q.parts)
    (hp : p.CompiledFrom source) : q.CompiledFrom source := by
  obtain ⟨entry, hentry, hextension, other, hother, before, stem, hparts, hsource⟩ := hp
  exact ⟨entry, hentry, extension?_congr h ▸ hextension, other, hother, before, stem, h ▸ hparts,
    hsource⟩

/-- A list in which a compiled file stands behind all its sources. -/
def SourcesFirst (paths : List Path) : Prop :=
  ∀ before p after, paths = before ++ p :: after → ∀ source, p.CompiledFrom source →
    ∃ earlier ∈ before, earlier.parts = source.parts

namespace SourcesFirst

theorem of_none {paths : List Path} (h : ∀ p ∈ paths, ∀ source, ¬ p.CompiledFrom source) :
    SourcesFirst paths := by
  rintro before p after rfl source hsource
  exact absurd hsource (h p (by simp) source)

theorem append {first second : List Path} (hfirst : SourcesFirst first)
    (hsecond : SourcesFirst second) : SourcesFirst (first ++ second) := by
  intro before p after h source hsource
  rcases List.append_eq_append_iff.1 h with ⟨more, rfl, hmore⟩ | ⟨more, hmore, hafter⟩
  · obtain ⟨earlier, hearlier, hsame⟩ := hsecond more p after hmore source hsource
    exact ⟨earlier, List.mem_append_right _ hearlier, hsame⟩
  · cases more with
    | nil =>
        obtain ⟨earlier, hearlier, -⟩ := hsecond [] p after hafter.symm source hsource
        cases hearlier
    | cons q more =>
        obtain ⟨rfl, -⟩ := List.cons.inj hafter
        exact hfirst before p more hmore source hsource

theorem flatMap {α : Type} {as : List α} {f : α → List Path} (h : ∀ a ∈ as, SourcesFirst (f a)) :
    SourcesFirst (as.flatMap f) := by
  induction as with
  | nil => exact of_none fun p hp => absurd hp List.not_mem_nil
  | cons a as ih =>
      have hrest : SourcesFirst (as.flatMap f) := ih fun b hb => h b (List.mem_cons_of_mem _ hb)
      exact (h a List.mem_cons_self).append hrest

/-- The first file of such a list that is there has no sources that are there. -/
theorem of_find? {paths : List Path} (h : SourcesFirst paths) {test : Path → Bool}
    (htest : ∀ p q : Path, p.parts = q.parts → test p = test q) {p : Path}
    (hp : paths.find? test = some p) {source : Path} (hsource : p.CompiledFrom source) :
    test source = false := by
  obtain ⟨-, before, after, hpaths, hbefore⟩ := List.find?_eq_some_iff_append.1 hp
  obtain ⟨earlier, hearlier, hsame⟩ := h before p after hpaths source hsource
  rw [← htest earlier source hsame]
  simpa using hbefore earlier hearlier

end SourcesFirst

/-! ## The forms of one place -/

/-- Extensions of which a compiled one stands behind those of its sources. -/
def Leading (extensions : List String) : Prop :=
  ∀ n (h : n < extensions.length), '.' ∉ extensions[n].toList ∧
    ∀ entry ∈ compiledExtensions, entry.1 = extensions[n] →
      ∀ other ∈ entry.2, other ∈ extensions.take n

instance (extensions : List String) : Decidable (Leading extensions) :=
  inferInstanceAs (Decidable (∀ n (_ : n < extensions.length), _))

theorem not_compiledFrom {p : Path} (h : ∀ entry ∈ compiledExtensions, p.extension? ≠ some entry.1)
    (source : Path) : ¬ p.CompiledFrom source := by
  rintro ⟨entry, hentry, hextension, -⟩
  exact h entry hentry hextension

/-- A text has one last dot. -/
theorem eq_of_last_dot {as bs cs ds : List Char} (h : as ++ '.' :: bs = cs ++ '.' :: ds)
    (hbs : '.' ∉ bs) (hds : '.' ∉ ds) : as = cs ∧ bs = ds := by
  rcases List.append_eq_append_iff.1 h with ⟨more, rfl, hmore⟩ | ⟨more, rfl, hmore⟩
  · cases more with
    | nil => simpa using hmore
    | cons c more => exact absurd (by simp [(List.cons.inj hmore).2]) hbs
  · cases more with
    | nil => simpa using hmore.symm
    | cons c more => exact absurd (by simp [(List.cons.inj hmore).2]) hds

/-- One stem with such extensions, one after the other. -/
theorem SourcesFirst.map {extensions : List String} (h : Leading extensions)
    {f : String → Path} {front : List Part} {stem : List Char}
    (hf : ∀ extension ∈ extensions,
      (f extension).parts = front ++ [.name (String.ofList (stem ++ '.' :: extension.toList))]) :
    SourcesFirst (extensions.map f) := by
  intro before p after hmap source hsource
  obtain ⟨first, second, rfl, rfl, hsecond⟩ := List.map_eq_append_iff.1 hmap
  obtain ⟨extension, rest, rfl, rfl, -⟩ := List.map_eq_cons_iff.1 hsecond
  obtain ⟨entry, hentry, -, other, hother, front', stem', hparts, hsource⟩ := hsource
  obtain ⟨hfree, hlead⟩ := h first.length (by simp)
  have hdots : ∀ entry ∈ compiledExtensions, '.' ∉ entry.1.toList := by decide
  rw [hf extension (by simp)] at hparts
  obtain ⟨rfl, hname⟩ := List.append_inj' hparts rfl
  have htext := congrArg String.toList (Part.name.inj (List.singleton_inj.1 hname))
  obtain ⟨rfl, hextension⟩ : stem = stem'.toList ∧ extension.toList = entry.1.toList :=
    eq_of_last_dot (by simpa using htext) (by simpa using hfree) (hdots entry hentry)
  have hmem : other ∈ first := by
    have hmem := hlead entry hentry (by simp [String.toList_inj.1 hextension]) other hother
    simpa using hmem
  refine ⟨f other, List.mem_map_of_mem hmem, ?_⟩
  have hwritten : String.ofList (stem'.toList ++ '.' :: other.toList) = stem' ++ "." ++ other :=
    String.toList_inj.1 (by simp)
  rw [hf other (by simp [hmem]), hsource, hwritten]

end Path

namespace Candidate

open ModuleTrace.Path (SourcesFirst Leading)

theorem leading_addedExtensions : Leading addedExtensions := by decide

theorem leading_substitutions : ∀ entry ∈ substitutions, Leading entry.2 := by decide

/-- A list of forms with the files they stand for: a file for itself, and a manifest for files among
which sources go first. -/
structure Stands (expand : Candidate → List Path) : Prop where
  file : ∀ path, expand (.file path) = [path]
  manifest : ∀ path, SourcesFirst (expand (.manifest path))

variable {expand : Candidate → List Path}

theorem Stands.flatMap_map (h : Stands expand) (f : String → Path) (extensions : List String) :
    (extensions.map fun extension => .file (f extension)).flatMap expand = extensions.map f := by
  rw [List.flatMap_map, List.map_eq_flatMap]
  exact List.flatMap_congr fun extension _ => h.file _

theorem Stands.added (h : Stands expand) (place : Path) :
    SourcesFirst ((added place).flatMap expand) := by
  obtain ⟨front, hparts, -, -⟩ := place.exists_parts_append
  rw [Candidate.added, h.flatMap_map]
  exact .map leading_addedExtensions fun extension hextension =>
    hparts extension (extends_of_mem_addedExtensions hextension)

theorem Stands.withoutExtension (h : Stands expand) (place : Path) :
    SourcesFirst ((withoutExtension place).flatMap expand) := by
  rw [Candidate.withoutExtension, List.flatMap_append, List.flatMap_cons]
  exact (h.added place).append ((h.manifest _).append (h.added _))

/-- The other extensions are put behind one stem. Where that is lost, no extension is left. -/
theorem sourcesFirst_withExtension (place : Path) {sources : List String} (hlead : Leading sources)
    (hextends : ∀ source ∈ sources, Path.Extends source) :
    SourcesFirst (sources.map place.withExtension) := by
  have hparts : ∀ source ∈ sources, _ := fun source hsource =>
    Path.parts_withExtension (p := place) (hextends source hsource).free
      (by rintro rfl; simpa using (hextends "" hsource).long)
  cases hname : place.withoutSuffix.name? with
  | none =>
      refine .of_none fun p hp => ?_
      obtain ⟨source, hsource, rfl⟩ := List.mem_map.1 hp
      have hwhole := hparts source hsource
      rw [hname] at hwhole
      have hnone : (place.withExtension source).extension? = none := by
        rw [Path.extension?_congr hwhole, Path.extension?, hname]
        rfl
      exact Path.not_compiledFrom fun entry _ => by simp [hnone]
  | some name =>
      have hall : ∀ source ∈ sources, (place.withExtension source).parts
          = place.withoutSuffix.parts.dropLast
            ++ [.name (String.ofList
              ((Path.splitName name).1.toList ++ '.' :: source.toList))] := by
        intro source hsource
        have hwhole := hparts source hsource
        have hlong := (hextends source hsource).long
        have htext : ((Path.splitName name).1 ++ "." ++ source).toList
            = (Path.splitName name).1.toList ++ '.' :: source.toList := by simp
        simp only [hname, htext] at hwhole
        rw [hwhole, Path.ofPiece_of_three_le (by simp; omega)]
        rfl
      exact .map hlead hall

/-- Sources go first among the forms of a place. -/
theorem Stands.of (h : Stands expand) (place : Path) :
    SourcesFirst ((of place).flatMap expand) := by
  have hcompiled : ∀ entry ∈ compiledExtensions, substitutions.lookup entry.1 ≠ none := by decide
  unfold Candidate.of
  cases hextension : place.extension? with
  | none => exact h.withoutExtension place
  | some extension =>
      simp only
      cases hsources : substitutions.lookup extension with
      | some sources =>
          obtain ⟨before, after, htable, -⟩ := List.lookup_eq_some_iff.1 hsources
          have hmem : (extension, sources) ∈ substitutions := by simp [htable]
          simp only
          rw [h.flatMap_map]
          exact sourcesFirst_withExtension place (leading_substitutions _ hmem)
            fun source hsource => extends_of_lookup hsources hsource
      | none =>
          have hself : SourcesFirst (expand (.file place)) := by
            rw [h.file]
            refine .of_none fun p hp => ?_
            obtain rfl := List.mem_singleton.1 hp
            refine Path.not_compiledFrom fun entry hentry heq => ?_
            obtain rfl : extension = entry.1 := by simpa [hextension] using heq
            exact hcompiled entry hentry hsources
          simp only
          split
          · simpa using hself
          · rw [List.flatMap_cons]
            exact hself.append (h.withoutExtension place)

end Candidate

namespace Loader

open ModuleTrace.Path (SourcesFirst)

variable {loader : Loader Id}

/-- By induction on how far manifests are followed. -/
theorem sourcesFirst_probes (root : Option Path) (depth : Nat) (target : Path)
    (config : Option ProjectConfig) : SourcesFirst (loader.probes root depth target config) := by
  induction depth generalizing target config with
  | zero =>
      unfold probes candidates
      rw [List.flatMap_assoc]
      refine .flatMap fun place _ => Candidate.Stands.of ⟨fun _ => rfl, fun _ => ?_⟩ place
      exact .of_none fun p hp => absurd hp List.not_mem_nil
  | succ depth ih =>
      unfold probes candidates
      rw [List.flatMap_assoc]
      refine .flatMap fun place _ => Candidate.Stands.of ⟨fun _ => rfl, fun _ => ?_⟩ place
      have hnil : SourcesFirst [] := .of_none fun p hp => absurd hp List.not_mem_nil
      simp only
      split
      · split
        · exact hnil
        · exact .flatMap fun entry _ => ih _ _
      · exact hnil

theorem finds_sources_first (fixed : loader.Fixed) {attempt : Attempt}
    (hboundary : attempt.surroundings.boundary = none) {path source : Path}
    (hfinds : loader.finds attempt = some path) (hsource : path.CompiledFrom source) :
    loader.has source = false := by
  have hpermits : ∀ path, attempt.surroundings.permits path = true := by
    simp [Surroundings.permits, hboundary]
  simp only [finds, hpermits, Bool.and_true] at hfinds
  exact (sourcesFirst_probes _ _ _ _).of_find? (fun p q h => fixed.has_congr h) hfinds hsource

/-- A local file is what one of the attempts finds. -/
theorem exists_trial_of_meaning (fixed : loader.Fixed) {s : Surroundings} {file : SourceFile}
    {specifier : String} {d : LocalDependency}
    (h : loader.meaning s file specifier = .localFile d) :
    ∃ attempt ∈ loader.trials s file specifier, loader.finds attempt = some d.path := by
  rw [meaning_eq_trials] at h
  cases hfirst : (loader.trials s file specifier).findSome? (loader.outcome specifier) with
  | none =>
      rw [hfirst, Option.elim_none, unfound] at h
      split at h <;> cases h
  | some found =>
      rw [hfirst] at h
      obtain rfl : found = d := by simpa using h
      obtain ⟨attempt, hattempt, houtcome⟩ := List.exists_of_findSome?_eq_some hfirst
      rw [outcome_eq fixed] at houtcome
      obtain ⟨path, hfinds, rfl⟩ := Option.map_eq_some_iff.1 houtcome
      exact ⟨attempt, hattempt, hfinds⟩

/-- Without a boundary, a specifier means a compiled file only if none of its sources is there,
whatever was asked before. -/
theorem classify_sources_first (fixed : loader.Fixed) (s : Surroundings)
    (hboundary : s.boundary = none) (past : List Question) (file : SourceFile) (specifier : String)
    (d : LocalDependency)
    (hlocal : Knowledge.valueAfter loader s.root past
      (Classifier.classify loader s file specifier) = .localFile d) :
    ∀ source, d.path.CompiledFrom source → loader.has source = false := by
  intro source hsource
  have hmeaning := Knowledge.valueAfter_classify fixed (s := s) past file specifier
  rw [hlocal] at hmeaning
  obtain ⟨e, hmeaning, hlike⟩ := hmeaning.symm.exists_localFile
  obtain ⟨attempt, hattempt, hfinds⟩ := exists_trial_of_meaning fixed hmeaning
  refine finds_sources_first fixed ?_ hfinds (hsource.congr hlike.path.symm)
  rcases mem_trials_cases hattempt with ⟨hs, -⟩ | ⟨package, -, -, hs⟩ <;>
    simp [hs, Surroundings.inside, hboundary]

/-- A project whose manifest names a file of the output directory. The file is found compiled in the
directory of the sources, though there is a source of it in the output directory. -/
def compiledProject : Loader Id :=
  .ofTexts [
    ([.root, .name "p", .name "tsconfig.json"],
      "\x7b\"compilerOptions\":\x7b\"outDir\":\"dist\",\"rootDir\":\"src\"\x7d\x7d"),
    ([.root, .name "p", .name "lib", .name "package.json"], "\x7b\"main\":\"../dist/m.js\"\x7d"),
    ([.root, .name "p", .name "dist", .name "m.ts"], ""),
    ([.root, .name "p", .name "src", .name "a.ts"], ""),
    ([.root, .name "p", .name "src", .name "m.js"], "")]

def compiledImporter : SourceFile := ⟨⟨"/p/src/a.ts"⟩, ""⟩

theorem compiledProject_meaning :
    compiledProject.meaning {} compiledImporter "../lib"
      = .localFile ⟨"../lib", ⟨"/p/src/m.js"⟩, .relative⟩ := by
  decide +kernel

theorem classify_sources_first_compiled :
    ∃ d, Knowledge.valueAfter compiledProject none [.probe ⟨"/p/src/./m.ts"⟩]
        (Classifier.classify compiledProject {} compiledImporter "../lib") = .localFile d ∧
      d.path.parts = [.root, .name "p", .name "src", .name "m.js"] ∧
      d.path.CompiledFrom ⟨"/p/src/m.tsx"⟩ ∧
      ∀ source, d.path.CompiledFrom source → compiledProject.has source = false := by
  have fixed : compiledProject.Fixed := ofTexts_fixed _
  have hmeaning := Knowledge.valueAfter_classify fixed (s := {}) [.probe ⟨"/p/src/./m.ts"⟩]
    compiledImporter "../lib"
  rw [compiledProject_meaning] at hmeaning
  obtain ⟨d, hd, hlike⟩ := hmeaning.exists_localFile
  have hcompiled : Path.CompiledFrom ⟨"/p/src/m.js"⟩ ⟨"/p/src/m.tsx"⟩ :=
    ⟨("js", ["ts", "tsx"]), by decide, by decide, "tsx", by decide,
      [.root, .name "p", .name "src"], "m", by decide, by decide⟩
  exact ⟨d, hd, hlike.path.trans (by decide), hcompiled.congr hlike.path.symm,
    classify_sources_first fixed {} rfl _ compiledImporter "../lib" d hd⟩

end Loader

end ModuleTrace
