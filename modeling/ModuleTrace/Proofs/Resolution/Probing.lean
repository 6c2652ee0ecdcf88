import ModuleTrace.Proofs.Resolution.Questions

/-!
# Probing in one line

A search that follows manifests from one to the next, up to a depth and under changing
configurations, comes to the same as going once through one flat list. Each rule has such a list,
and a specifier means what the first rule finds whose list holds a file that may be found.
-/

namespace ModuleTrace

/-! ## The manifest of a place -/

theorem Path.parts_div_fileName (p : Path) :
    (p / Manifest.fileName).parts = p.parts ++ [.name Manifest.fileName] :=
  p.parts_div_plain Manifest.plain_fileName

theorem Path.exists_parent?_div_fileName (p : Path) :
    ∃ directory, (p / Manifest.fileName).parent? = some directory ∧
      directory.parts = p.parts :=
  p.exists_parent?_div Manifest.plain_fileName

namespace Candidate

/-- A manifest is looked for in the place itself. -/
theorem path_of_manifest_mem {place path : Path} (h : .manifest path ∈ of place) :
    path = place / Manifest.fileName := by
  have hadded : ∀ p : Path, .manifest path ∉ added p := by
    intro p hmem
    obtain ⟨extension, _, hfile⟩ := List.mem_map.1 hmem
    cases hfile
  have hopen : .manifest path ∈ withoutExtension place → path = place / Manifest.fileName := by
    intro hmem
    rcases List.mem_append.1 hmem with hmem | hmem
    · exact absurd hmem (hadded place)
    · rcases List.mem_cons.1 hmem with hmanifest | hmem
      · cases hmanifest
        rfl
      · exact absurd hmem (hadded _)
  unfold of at h
  split at h
  · exact hopen h
  · split at h
    · obtain ⟨source, _, hfile⟩ := List.mem_map.1 h
      cases hfile
    · split at h
      · simp at h
      · exact hopen (by simpa using h)

end Candidate

namespace Loader

section

variable (loader : Loader Id) (root : Option Path)

/-- What the file at a path says, if there is a file and it can be parsed as a manifest. -/
def manifestOf (path : Path) : Option Manifest :=
  if loader.has path then (loader.text? path).run.bind (Manifest.parse? · path) else none

def candidates (target : Path) (config : Option ProjectConfig) : List Candidate :=
  let places :=
    match config with
    | none => [target]
    | some config => config.sourcePaths target
  places.flatMap Candidate.of

/-- The files that a target may stand for, in the order in which they are tried, with the files of
its entries in the stead of a manifest. Entries are looked for under the configuration of the
manifest's directory, and one step less deep. -/
def probes : Nat → Path → Option ProjectConfig → List Path
  | depth, target, config =>
      (candidates target config).flatMap fun candidate =>
        match candidate with
        | .file path => [path]
        | .manifest path =>
            match depth with
            | 0 => []
            | depth + 1 =>
                if config.all fun config => config.moduleResolution.allowsManifests then
                  match loader.manifestOf path with
                  | none => []
                  | some manifest =>
                      manifest.entries.flatMap fun entry =>
                        probes depth (manifest.directory / entry).normalize
                          (loader.configFor root manifest.directory)
                else []

end

variable {loader : Loader Id} {root : Option Path}

theorem path_of_manifestOf {path : Path} {manifest : Manifest}
    (h : loader.manifestOf path = some manifest) : manifest.path = path := by
  unfold manifestOf at h
  split at h
  · obtain ⟨contents, _, hparse⟩ := Option.bind_eq_some_iff.1 h
    obtain ⟨json, _, rfl⟩ := Option.map_eq_some_iff.1 hparse
    rfl
  · cases h

theorem manifestOf_alike (fixed : loader.Fixed) {p q : Path} (h : p.parts = q.parts) :
    Option.Rel Manifest.Alike (loader.manifestOf p) (loader.manifestOf q) := by
  unfold manifestOf
  rw [fixed.has_congr h, fixed.text?_congr h]
  split
  · cases (loader.text? q).run with
    | none => exact .none
    | some contents => exact Manifest.parse?_alike h contents
  · exact .none

theorem manifestIn_eq (d : Path) :
    loader.manifestIn d = loader.manifestOf (d / Manifest.fileName) := rfl

theorem manifestFor_eq (d : Path) :
    loader.manifestFor root d = match loader.manifestOf (d / Manifest.fileName) with
      | some own => some own
      | none =>
          if root.any d.same then none
          else d.parent?.bind (loader.manifestFor root) := by
  rw [manifestFor, Path.ancestors_eq, nearest, manifestIn_eq]
  cases loader.manifestOf (d / Manifest.fileName) with
  | some own => rfl
  | none => cases d.parent? <;> rfl

/-- A manifest that governs a directory lies in it or above it. -/
theorem length_path_manifestFor (d : Path) {manifest : Manifest}
    (h : loader.manifestFor root d = some manifest) :
    manifest.path.parts.length ≤ d.parts.length + 1 := by
  induction hlength : d.parts.length using Nat.strongRecOn generalizing d with
  | ind length ih =>
      subst hlength
      rw [manifestFor_eq] at h
      split at h
      · rename_i own hown
        cases h
        rw [path_of_manifestOf hown, d.parts_div_fileName]
        simp
      · split at h
        · cases h
        · obtain ⟨above, habove, h⟩ := Option.bind_eq_some_iff.1 h
          have hshort := Path.length_parts_parent? habove
          have hbound := ih above.parts.length (by omega) above h rfl
          omega

/-- A manifest from above is not the one that was looked for in the directory. -/
theorem not_same_of_manifestFor {d path : Path} {manifest : Manifest}
    (hpath : path.parts.length = d.parts.length + 1)
    (hnone : loader.manifestOf (d / Manifest.fileName) = none)
    (h : loader.manifestFor root d = some manifest) : manifest.path.same path = false := by
  rw [manifestFor_eq, hnone] at h
  simp only [Option.ite_none_left_eq_some] at h
  obtain ⟨above, habove, h⟩ := Option.bind_eq_some_iff.1 h.2
  have hshort := Path.length_parts_parent? habove
  have hbound := length_path_manifestFor above h
  rw [← Bool.not_eq_true, Path.same_iff]
  intro hsame
  rw [hsame] at hbound
  omega

/-- The manifest that governs a directory is the one in it exactly if that can be used. -/
theorem entries_manifestAt (fixed : loader.Fixed) (root : Option Path) (place : Path)
    {directory : Path}
    (hparent : (place / Manifest.fileName).parent? = some directory) :
    (loader.manifestAt root (place / Manifest.fileName)).map
        (fun found => (found.1, found.2.entries))
      = (loader.manifestOf (place / Manifest.fileName)).map
          fun manifest => (directory, manifest.entries) := by
  have hlength := Path.length_parts_parent? hparent
  have hown : (directory / Manifest.fileName).parts = (place / Manifest.fileName).parts := by
    obtain ⟨other, hother, hparts⟩ := place.exists_parent?_div_fileName
    obtain rfl : directory = other := Option.some.inj (hparent.symm.trans hother)
    exact Path.parts_div_congr hparts _
  have halike := manifestOf_alike fixed hown
  unfold manifestAt
  cases hhas : loader.has (place / Manifest.fileName) with
  | false => simp [manifestOf, hhas]
  | true =>
      simp only [if_true, hparent]
      cases hfound : loader.manifestOf (directory / Manifest.fileName) with
      | some own =>
          have hgoverns : loader.manifestFor root directory = some own := by
            rw [manifestFor_eq, hfound]
          have hsame : own.path.same (place / Manifest.fileName) = true := by
            rw [path_of_manifestOf hfound, Path.same_iff, hown]
          rw [hfound] at halike
          generalize loader.manifestOf (place / Manifest.fileName) = other at halike ⊢
          cases halike with
          | some hentries => simp [hgoverns, hsame, hentries.entries]
      | none =>
          have hother : loader.manifestOf (place / Manifest.fileName) = none := by
            rw [hfound] at halike
            generalize loader.manifestOf (place / Manifest.fileName) = other at halike ⊢
            cases halike
            rfl
          rw [hother]
          cases hgoverns : loader.manifestFor root directory with
          | none => rfl
          | some manifest => simp [not_same_of_manifestFor hlength.symm hfound hgoverns]

theorem candidates_eq (target : Path) (config : Option ProjectConfig) :
    Classifier.probes target config = candidates target config := by
  cases config <;> rfl

theorem exists_place_of_mem {target : Path} {config : Option ProjectConfig} {candidate : Candidate}
    (h : candidate ∈ candidates target config) : ∃ place, candidate ∈ Candidate.of place := by
  obtain ⟨place, -, hcandidate⟩ := List.mem_flatMap.1 h
  exact ⟨place, hcandidate⟩

/-- By induction on how far manifests are followed. -/
theorem scan_eq_probes (fixed : loader.Fixed) (depth : Nat) (target : Path)
    (config : Option ProjectConfig) :
    loader.scan root depth target config = loader.probes root depth target config := by
  induction depth generalizing target config with
  | zero =>
      unfold scan probes
      rewrite [candidates_eq]
      exact List.flatMap_congr fun candidate _ => by cases candidate <;> rfl
  | succ depth ih =>
      unfold scan probes
      rw [candidates_eq]
      refine List.flatMap_congr fun candidate hcandidate => ?_
      obtain ⟨place, hcandidate⟩ := exists_place_of_mem hcandidate
      cases candidate with
      | file path => rfl
      | manifest path =>
          obtain rfl := Candidate.path_of_manifest_mem hcandidate
          obtain ⟨directory, hparent, -⟩ := place.exists_parent?_div_fileName
          have hentries := entries_manifestAt fixed root place hparent
          simp only
          split
          · cases hown : loader.manifestOf (place / Manifest.fileName) with
            | none =>
                rw [hown, Option.map_none, Option.map_eq_none_iff] at hentries
                simp only [hentries]
            | some manifest =>
                rw [hown, Option.map_some, Option.map_eq_some_iff] at hentries
                obtain ⟨⟨other, found⟩, hat, heq⟩ := hentries
                simp only [Prod.mk.injEq] at heq
                obtain ⟨rfl, hsame⟩ := heq
                have hdirectory : manifest.directory = other := by
                  rw [Manifest.directory, path_of_manifestOf hown, hparent, Option.getD_some]
                simp only [hat, hsame, hdirectory, ih]
          · rfl

/-! ## Rule by rule -/

variable (loader)

/-- The first file of an attempt's list that exists and may be found. -/
def finds (attempt : Attempt) : Option Path :=
  (loader.probes attempt.surroundings.root Classifier.manifestDepth attempt.target
    attempt.config).find? fun path => loader.has path && attempt.surroundings.permits path

/-- Where a specifier written as a path is looked for. -/
def relativeAttempt (s : Surroundings) (file : SourceFile) (specifier : String) : Attempt :=
  ⟨.relative, (file.directory / specifier).normalize, loader.configFor s.root file.directory, s⟩

def attempts (s : Surroundings) (file : SourceFile) (specifier : String) : List Attempt :=
  loader.bareAttempts s file.directory (loader.configFor s.root file.directory) specifier

/-- An answer that goes to the first rule that finds a file. -/
structure FirstMatch (s : Surroundings) (file : SourceFile) (specifier : String)
    (answer : Classification) : Prop where
  relative_found : Specifier.isLocal specifier = true → ∀ path,
    loader.finds (loader.relativeAttempt s file specifier) = some path →
    answer.Alike (.localFile ⟨specifier, path, .relative⟩)
  relative_missing : Specifier.isLocal specifier = true →
    loader.finds (loader.relativeAttempt s file specifier) = none →
    answer = .missing ⟨specifier, (file.directory / specifier).normalize⟩
  bare : Specifier.isLocal specifier = false → Specifier.hasScheme specifier = false →
    ∀ before attempt after path, loader.attempts s file specifier = before ++ attempt :: after →
      (∀ earlier ∈ before, loader.finds earlier = none) → loader.finds attempt = some path →
      answer.Alike (.localFile ⟨specifier, path, attempt.rule⟩)
  external : Specifier.isLocal specifier = false →
    (answer = .external specifier ↔ Specifier.hasScheme specifier = true ∨
      ∀ attempt ∈ loader.attempts s file specifier, loader.finds attempt = none)

variable {loader}

theorem outcome_eq (fixed : loader.Fixed) (specifier : String) (attempt : Attempt) :
    loader.outcome specifier attempt
      = (loader.finds attempt).map fun path => ⟨specifier, path, attempt.rule⟩ := by
  rw [outcome, finds, scan_eq_probes fixed]

end Loader

/-- A specifier with a scheme is not written as a path. -/
theorem Specifier.isLocal_of_hasScheme {specifier : String}
    (h : hasScheme specifier = true) : isLocal specifier = false := by
  obtain ⟨rest, hrest⟩ := Option.isSome_iff_exists.1 h
  have hchars : specifier.toList = 'n' :: ("ode:".toList ++ rest) :=
    Affix.after?_eq_some_iff.1 hrest
  have hne : ∀ other : String, other.toList.head? ≠ some 'n' → specifier ≠ other := by
    rintro other hother rfl
    exact hother (by rw [hchars]; rfl)
  have hdot : specifier ≠ "." := hne "." (by decide)
  have hdots : specifier ≠ ".." := hne ".." (by decide)
  simp [isLocal, Affix.begins, Affix.after?, Path.isAbsolute, hchars, hdot, hdots]

namespace Loader

variable {loader : Loader Id} {s : Surroundings} {file : SourceFile} {specifier : String}
  {answer : Classification}

theorem meaning_of_scheme (hscheme : Specifier.hasScheme specifier = true) :
    loader.meaning s file specifier = .external specifier := by
  simp only [meaning, hscheme, if_true]

theorem meaning_of_local (hlocal : Specifier.isLocal specifier = true) :
    loader.meaning s file specifier
      = (loader.outcome specifier (loader.relativeAttempt s file specifier)).elim
        (.missing ⟨specifier, (file.directory / specifier).normalize⟩) .localFile := by
  have hscheme : Specifier.hasScheme specifier = false := by
    rw [← Bool.not_eq_true]
    intro hscheme
    rw [Specifier.isLocal_of_hasScheme hscheme] at hlocal
    cases hlocal
  simp only [meaning, relativeAttempt, hscheme, hlocal, Bool.false_eq_true, if_false, if_true]
  generalize loader.outcome specifier _ = found
  cases found <;> rfl

theorem meaning_of_bare (hlocal : Specifier.isLocal specifier = false)
    (hscheme : Specifier.hasScheme specifier = false) :
    loader.meaning s file specifier
      = ((loader.attempts s file specifier).findSome? (loader.outcome specifier)).elim
        (.external specifier) .localFile := by
  simp only [meaning, attempts, hscheme, hlocal, Bool.false_eq_true, if_false]
  generalize List.findSome? _ _ = found
  cases found <;> rfl

theorem findSome?_outcome_eq_none_iff (fixed : loader.Fixed) (specifier : String)
    (attempts : List Attempt) :
    attempts.findSome? (loader.outcome specifier) = none ↔
      ∀ attempt ∈ attempts, loader.finds attempt = none := by
  simp only [List.findSome?_eq_none_iff, outcome_eq fixed, Option.map_eq_none_iff]

theorem findSome?_outcome_of_first (fixed : loader.Fixed) {before after : List Attempt}
    {attempt : Attempt} {path : Path} (hbefore : ∀ earlier ∈ before, loader.finds earlier = none)
    (hfinds : loader.finds attempt = some path) :
    (before ++ attempt :: after).findSome? (loader.outcome specifier)
      = some ⟨specifier, path, attempt.rule⟩ := by
  have hnone := (findSome?_outcome_eq_none_iff fixed specifier before).2 hbefore
  rw [List.findSome?_append, hnone, Option.none_or, List.findSome?_cons, outcome_eq fixed, hfinds]
  rfl

/-- The answer without memory goes to the first rule that finds a file. -/
theorem firstMatch_of_meaning (fixed : loader.Fixed)
    (h : answer.Alike (loader.meaning s file specifier)) :
    loader.FirstMatch s file specifier answer := by
  constructor
  · intro hlocal path hfinds
    rw [meaning_of_local hlocal, outcome_eq fixed, hfinds] at h
    exact h
  · intro hlocal hfinds
    rw [meaning_of_local hlocal, outcome_eq fixed, hfinds] at h
    exact h.of_missing
  · intro hlocal hscheme before attempt after path hlist hbefore hfinds
    rw [meaning_of_bare hlocal hscheme, hlist,
      findSome?_outcome_of_first fixed hbefore hfinds] at h
    exact h
  · intro hlocal
    cases hscheme : Specifier.hasScheme specifier with
    | true =>
        rw [meaning_of_scheme hscheme] at h
        simp [h.of_external]
    | false =>
        rw [meaning_of_bare hlocal hscheme] at h
        rw [← findSome?_outcome_eq_none_iff fixed specifier]
        cases hfirst : (loader.attempts s file specifier).findSome? (loader.outcome specifier) with
        | none =>
            rw [hfirst] at h
            simp [h.of_external]
        | some dependency =>
            rw [hfirst] at h
            have hne : answer ≠ .external specifier := by
              rintro rfl
              cases h
            simp [hne]

/-- Under a loader that never changes its answers, looking for a target gives the first file of
its list that exists and may be found, and a specifier means what the first rule finds, whatever
was asked before. -/
theorem classify_first_match (fixed : loader.Fixed) (s : Surroundings) (past : List Question) :
    (∀ depth target config, Option.Rel (fun p q : Path => p.parts = q.parts)
      (Knowledge.valueAfter loader s.root past (Classifier.lookup loader s depth target config))
      ((loader.probes s.root depth target config).find? fun path =>
        loader.has path && s.permits path)) ∧
    ∀ file specifier, loader.FirstMatch s file specifier
      (Knowledge.valueAfter loader s.root past
        (Classifier.classify loader s file specifier)) := by
  constructor
  · intro depth target config
    have hlookup := Classifier.lookup_ensures fixed s depth target
      (ProjectConfig.alike_self config)
    rw [scan_eq_probes fixed] at hlookup
    exact Knowledge.valueAfter_of_ensures fixed past hlookup
  · intro file specifier
    exact firstMatch_of_meaning fixed (Knowledge.valueAfter_classify fixed past file specifier)

/-- A project with an alias of two targets. The second one is a directory whose manifest names
another directory, and the manifest there cannot be parsed. -/
def aliasProject : Loader Id :=
  .ofTexts [
    ([.root, .name "p", .name "tsconfig.json"],
      "\x7b\"compilerOptions\":\x7b\"paths\":\x7b\"@/*\":[\"gen/*\",\"lib/*\"]\x7d\x7d\x7d"),
    ([.root, .name "p", .name "a.ts"], ""),
    ([.root, .name "p", .name "lib", .name "x", .name "package.json"],
      "\x7b\"main\":\"./m\"\x7d"),
    ([.root, .name "p", .name "lib", .name "x", .name "m", .name "package.json"], "\x7b"),
    ([.root, .name "p", .name "lib", .name "x", .name "m", .name "index.ts"], "")]

def aliasImporter : SourceFile := ⟨⟨"/p/a.ts"⟩, ""⟩

theorem aliasProject_attempts :
    (aliasProject.attempts {} aliasImporter "@/x").map
        (fun attempt => (attempt.rule, attempt.target, aliasProject.finds attempt))
      = [(.aliased "@/*" "gen/*", ⟨"/p/gen/x"⟩, none),
        (.aliased "@/*" "lib/*", ⟨"/p/lib/x"⟩, some ⟨"/p/lib/x/m/index.ts"⟩)] := by
  decide +kernel

theorem classify_first_match_alias :
    aliasProject.Fixed ∧
      (Knowledge.valueAfter aliasProject none
        [.specifier none (some ⟨"/p/gen"⟩) aliasImporter "@/x", .probe ⟨"/p/./lib/x/m.ts"⟩]
        (Classifier.classify aliasProject {} aliasImporter "@/x")).Alike
          (.localFile ⟨"@/x", ⟨"/p/lib/x/m/index.ts"⟩, .aliased "@/*" "lib/*"⟩) := by
  have fixed : aliasProject.Fixed := ofTexts_fixed _
  refine ⟨fixed, ?_⟩
  have hmatch := (classify_first_match fixed {} [.specifier none (some ⟨"/p/gen"⟩) aliasImporter
    "@/x", .probe ⟨"/p/./lib/x/m.ts"⟩]).2 aliasImporter "@/x"
  obtain ⟨gen, rest, hlist, hgen, hrest⟩ := List.map_eq_cons_iff.1 aliasProject_attempts
  obtain ⟨lib, after, rfl, hlib, hafter⟩ := List.map_eq_cons_iff.1 hrest
  simp only [Prod.mk.injEq] at hgen hlib
  have hanswer := hmatch.bare (by decide) (by decide) [gen] lib after _ hlist
    (by simpa using hgen.2.2) hlib.2.2
  rwa [hlib.1] at hanswer

end Loader

end ModuleTrace
