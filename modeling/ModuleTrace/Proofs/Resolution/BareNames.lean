import ModuleTrace.Proofs.Resolution.Keeping
import ModuleTrace.Proofs.Resolution.Restriction

/-!
# Packages by their bare names

The name of a package alone stands for its directory, and what is looked for are the forms of the
directory's path. Its index is one of them unless the name of the directory ends in an extension
of the table, which makes the path that of a file.
-/

namespace ModuleTrace

/-! ## The index among the forms of a directory -/

theorem Path.div_append (p : Path) (name extension : String)
    (h : (Path.mk name).isAbsolute = false)
    (hlong : (Path.mk (name ++ "." ++ extension)).isAbsolute = false) :
    (p / name).append extension = p / (name ++ "." ++ extension) := by
  show (p.join ⟨name⟩).append extension = p.join ⟨name ++ "." ++ extension⟩
  unfold join append
  rw [h, hlong]
  split
  · contradiction
  · split <;> simp only [String.append_assoc]

namespace Candidate

/-- Whether the extension of a path makes it the path of a file, which no directory form of it is
looked for beside. -/
def isFileName (path : Path) : Bool :=
  match path.extension? with
  | none => false
  | some extension =>
      (substitutions.lookup extension).isSome || sourceExtensions.contains extension

theorem isFileName_congr {p q : Path} (h : p.parts = q.parts) : isFileName p = isFileName q := by
  unfold isFileName
  rw [Path.extension?_congr h]

theorem index_mem_of {path : Path} (h : isFileName path = false) :
    .file (path / "index.js") ∈ of path := by
  have hindex : .file (path / "index.js") ∈ withoutExtension path := by
    have hjs : "js" ∈ addedExtensions := by decide
    have hadded : .file ((path / "index").append "js") ∈ added (path / "index") :=
      List.mem_map.2 ⟨"js", hjs, rfl⟩
    rw [Path.div_append path "index" "js" (by decide) (by decide)] at hadded
    exact List.mem_append_right _ (List.mem_cons_of_mem _ hadded)
  unfold isFileName at h
  unfold of
  cases hextension : path.extension? with
  | none => exact hindex
  | some extension =>
      simp only [hextension, Bool.or_eq_false_iff, Option.isSome_eq_false_iff,
        Option.isNone_iff_eq_none] at h
      obtain ⟨hlookup, hsource⟩ := h
      simp only [hlookup, hsource]
      exact List.mem_cons_of_mem _ hindex

end Candidate

namespace ProjectConfig

theorem exists_mem_dropRepeats {path : Path} {paths : List Path} (h : path ∈ paths) :
    ∃ place ∈ dropRepeats paths, place.parts = path.parts := by
  induction paths with
  | nil => cases h
  | cons p rest ih =>
      -- A path that is dropped stands behind one of the same parts, which is kept in its place.
      have hkeeps : ∀ place ∈ p :: dropRepeats rest,
          ∃ other ∈ dropRepeats (p :: rest), other.parts = place.parts := by
        intro place hplace
        unfold dropRepeats
        split
        · rename_i hrest
          rw [hrest] at hplace
          exact ⟨place, hplace, rfl⟩
        · rename_i q kept hrest
          rw [hrest] at hplace
          split
          · rename_i hsame
            have hparts := (Path.same_iff p q).1 hsame
            rcases List.mem_cons.1 hplace with rfl | hplace
            · exact ⟨place, List.mem_cons_self, rfl⟩
            · rcases List.mem_cons.1 hplace with rfl | hplace
              · exact ⟨p, List.mem_cons_self, hparts⟩
              · exact ⟨place, List.mem_cons_of_mem _ hplace, rfl⟩
          · exact ⟨place, hplace, rfl⟩
      rcases List.mem_cons.1 h with rfl | hmem
      · exact hkeeps path List.mem_cons_self
      · obtain ⟨place, hplace, hparts⟩ := ih hmem
        obtain ⟨other, hother, hsame⟩ := hkeeps place (List.mem_cons_of_mem _ hplace)
        exact ⟨other, hother, hsame.trans hparts⟩

/-- A target is looked for at its own place, whatever directories of sources there are. -/
theorem exists_mem_sourcePaths (config : ProjectConfig) (target : Path) :
    ∃ place ∈ config.sourcePaths target, place.parts = target.parts :=
  exists_mem_dropRepeats (List.mem_append_right _ List.mem_cons_self)

end ProjectConfig

theorem Classifier.exists_index_mem_probes {target : Path}
    (h : Candidate.isFileName target = false) (config : Option ProjectConfig) :
    ∃ path, path.parts = (target / "index.js").parts ∧ .file path ∈ probes target config := by
  have hindex : ∀ place : Path, place.parts = target.parts →
      (place / "index.js").parts = (target / "index.js").parts ∧
        .file (place / "index.js") ∈ Candidate.of place := by
    intro place hparts
    have hname : Candidate.isFileName place = false := by
      rw [Candidate.isFileName_congr hparts, h]
    exact ⟨Path.parts_div_congr hparts _, Candidate.index_mem_of hname⟩
  cases config with
  | none =>
      obtain ⟨hparts, hmem⟩ := hindex target rfl
      exact ⟨_, hparts, List.mem_flatMap.2 ⟨target, List.mem_cons_self, hmem⟩⟩
  | some config =>
      obtain ⟨place, hplace, hsame⟩ := config.exists_mem_sourcePaths target
      obtain ⟨hparts, hmem⟩ := hindex place hsame
      exact ⟨_, hparts, List.mem_flatMap.2 ⟨place, hplace, hmem⟩⟩

/-! ## A file that is always there -/

section

variable {m : Type → Type} [Monad m] [LawfulMonad m] {loader : Loader m} {file : Path}

/-- Nothing that is remembered says that a file is not there. -/
def SourceCache.Grants (file : Path) (cache : SourceCache) : Prop :=
  cache.existence[file.parts]? ≠ some false

/-- However the path of a file is spelled, the loader says that it is there. -/
def Loader.AlwaysHas (loader : Loader m) (file : Path) : Prop :=
  ∀ path : Path, path.parts = file.parts → Always (· = true) (loader.isFile path)

namespace SourceCache

theorem grants_insert {cache : SourceCache} (h : cache.Grants file) {path : Path} {answer : Bool}
    (hanswer : path.parts = file.parts → answer = true) :
    (cache.existence.insert path.parts answer)[file.parts]? ≠ some false := by
  rw [Std.HashMap.getElem?_insert]
  split
  · rename_i hkey
    simp [hanswer (eq_of_beq hkey)]
  · exact h

theorem isFile_grants (h : loader.AlwaysHas file) (path : Path) :
    Ensures (Grants file) (isFile loader path) fun answer =>
      path.parts = file.parts → answer = true := by
  unfold isFile
  refine Ensures.get.bind fun cache hcache => ?_
  split
  · rename_i answer hanswer
    refine .pure fun hpath => ?_
    rw [hpath] at hanswer
    cases answer with
    | true => rfl
    | false => exact absurd hanswer hcache
  · have hasks : Always (fun answer => path.parts = file.parts → answer = true)
        (loader.isFile path) := by
      by_cases hpath : path.parts = file.parts
      · exact (h path hpath).mono fun answer hanswer _ => hanswer
      · exact (Always.top _).mono fun _ _ hsame => absurd hsame hpath
    refine (Ensures.lift hasks).bind fun answer hanswer => ?_
    refine (Ensures.modify fun cache hcache => ?_).bind fun _ _ => .pure hanswer
    exact grants_insert hcache hanswer

theorem grants_kept (h : loader.AlwaysHas file) : Kept loader (Grants file) := by
  have hread : ∀ path, Ensures (Grants file) (readFresh loader path) fun _ => True := by
    intro path
    unfold readFresh
    refine (Ensures.modify fun cache hcache => ?_).bind fun _ _ => .lift (.top _)
    exact hcache
  refine ⟨fun path => (isFile_grants h path).mono fun _ _ => trivial, fun path => ?_, hread⟩
  unfold load
  refine Ensures.get.bind fun cache _ => ?_
  split
  · exact .pure trivial
  · refine (hread path).bind fun answer _ => ?_
    cases answer with
    | error error => exact .pure trivial
    | ok contents =>
        refine (Ensures.modify fun cache hcache => ?_).bind fun _ _ => .pure trivial
        exact grants_insert hcache fun _ => rfl

end SourceCache

namespace Classifier

open Knowledge (OfSources)

/-- One action that always finds something is enough. -/
theorem firstSome_finds {α β : Type} {I : Knowledge → Prop}
    {action : α → StateT Knowledge m (Option β)} {as : List α}
    (hkept : ∀ a ∈ as, Ensures I (action a) fun _ => True)
    (hfinds : ∃ a ∈ as, Ensures I (action a) fun answer => answer.isSome = true) :
    Ensures I (firstSome action as) fun answer => answer.isSome = true := by
  induction as with
  | nil =>
      obtain ⟨a, ha, -⟩ := hfinds
      cases ha
  | cons first rest ih =>
      rw [firstSome]
      obtain ⟨a, ha, hfound⟩ := hfinds
      rcases List.mem_cons.1 ha with rfl | hrest
      · refine hfound.bind fun answer hanswer => ?_
        cases answer with
        | none => cases hanswer
        | some found => exact .pure rfl
      · refine (hkept first List.mem_cons_self).bind fun answer _ => ?_
        cases answer with
        | none =>
            exact ih (fun b hb => hkept b (List.mem_cons_of_mem _ hb)) ⟨a, hrest, hfound⟩
        | some found => exact .pure rfl

/-- Without a boundary a target is found where the index of its directory is there, whatever else
is looked for before. -/
theorem lookup_finds {s : Surroundings} (hs : s.boundary = none) {target : Path}
    (hindex : loader.AlwaysHas (target / "index.js")) (hname : Candidate.isFileName target = false)
    (depth : Nat) (config : Option ProjectConfig) :
    Ensures (OfSources (SourceCache.Grants (target / "index.js")))
      (lookup loader s depth target config) fun answer => answer.isSome = true := by
  have kept := SourceCache.grants_kept hindex
  rw [lookup_eq]
  apply firstSome_finds
  · intro candidate _
    apply tryCandidate_kept kept
    intro deeper _ target config
    exact lookup_kept kept s deeper target config
  · obtain ⟨path, hpath, hmem⟩ := exists_index_mem_probes hname config
    refine ⟨.file path, hmem, ?_⟩
    have hfile := Knowledge.withSources_ofSources (SourceCache.isFile_grants hindex path)
    refine Ensures.bind hfile fun answer hanswer => ?_
    rw [hanswer hpath]
    have hpermits : s.permits path = true := by rw [Surroundings.permits, hs]
    exact .pure (by simp [hpermits])

theorem subpath_append (name rest : String) :
    subpath name (name ++ rest) = Affix.trimLeft (· = '/') rest := by
  have hafter : Affix.after? name.toList (name ++ rest).toList = some rest.toList :=
    Affix.after?_eq_some_iff.2 (by simp)
  rw [subpath, Affix.dropStart?, hafter, Option.map_some, Option.getD_some, String.ofList_toList]

theorem subpath_self (name : String) : subpath name name = "" := by
  have h := subpath_append name ""
  rw [String.append_empty] at h
  rw [h]
  rfl

/-- A package without a boundary is found by its name, unless its directory is named as a file. -/
theorem byWorkspace_finds {s : Surroundings} (hs : s.boundary = none) {package : Package}
    (hpackage : (s.workspace.bind fun w => w.byName package.name) = some package)
    (hself : Specifier.packageName package.name = package.name)
    (hindex : loader.AlwaysHas (package.path / "index.js"))
    (hname : Candidate.isFileName package.path = false) :
    Ensures (OfSources (SourceCache.Grants (package.path / "index.js")))
      (byWorkspace loader s package.name) fun answer =>
        ∃ path, answer = some ⟨package.name, path, .workspace package.name⟩ := by
  have kept := SourceCache.grants_kept hindex
  have hinside : (s.inside package).boundary = none := by simp [Surroundings.inside, hs]
  unfold byWorkspace
  simp only [hself, hpackage, subpath_self]
  refine (Knowledge.configFor_kept kept package.path).bind fun config _ => ?_
  refine (lookup_finds hinside hindex hname manifestDepth config).bind fun answer hanswer => ?_
  obtain ⟨path, rfl⟩ := Option.isSome_iff_exists.1 hanswer
  exact .pure ⟨path, rfl⟩

/-- What the project of a file itself finds for a bare specifier. -/
def byOwnRules (loader : Loader m) (s : Surroundings) (file : SourceFile) (specifier : String) :
    StateT Knowledge m (Option LocalDependency) := do
  let config ← Knowledge.configFor loader s.root file.directory
  ownRules loader s file.directory config specifier

theorem byOwnRules_kept {J : SourceCache → Prop} (kept : SourceCache.Kept loader J)
    (s : Surroundings) (file : SourceFile) (specifier : String) :
    Ensures (OfSources J) (byOwnRules loader s file specifier) fun _ => True :=
  (Knowledge.configFor_kept kept file.directory).bind fun config _ =>
    ownRules_kept kept s file.directory config specifier

/-- The name of a package comes after the project's own rules, and before a module from
elsewhere. -/
theorem classify_bare_eq {specifier : String} (hlocal : Specifier.isLocal specifier = false)
    (hscheme : Specifier.hasScheme specifier = false) (loader : Loader m) (s : Surroundings)
    (file : SourceFile) : classify loader s file specifier = (do
      match ← byOwnRules loader s file specifier with
      | some dependency => return .localFile dependency
      | none =>
          match ← byWorkspace loader s specifier with
          | some dependency => return .localFile dependency
          | none => return .external specifier) := by
  unfold classify byOwnRules
  simp only [hlocal, hscheme, Bool.false_eq_true, if_false]
  rw [bind_assoc]
  refine bind_congr fun config => ?_
  rw [bare_eq, bind_assoc]
  refine bind_congr fun answer => ?_
  cases answer with
  | some dependency => simp
  | none =>
      refine bind_congr fun found => ?_
      cases found <;> rfl

end Classifier

/-! ## Importing a package -/

/-- Without a boundary, a package of the workspace whose index is there is found by its bare name,
if the importing file's own project finds nothing of that name and the name of the package's
directory does not end in an extension of the table. -/
theorem Classifier.classify_bare_name (loader : Loader m) (root : Option Path) {w : Workspace}
    {package : Package} (hpackage : w.byName package.name = some package)
    (hself : Specifier.packageName package.name = package.name)
    (hlocal : Specifier.isLocal package.name = false)
    (hscheme : Specifier.hasScheme package.name = false)
    (hname : Candidate.isFileName package.path = false)
    (hindex : loader.AlwaysHas (package.path / "index.js")) (past : List Question)
    (file : SourceFile)
    (hown : Always (fun result => result.1 = none) (Knowledge.runAfter loader root past
      (byOwnRules loader ⟨root, some w, none⟩ file package.name))) :
    Always (fun result => ∃ path,
        result.1 = .localFile ⟨package.name, path, .workspace package.name⟩)
      (Knowledge.runAfter loader root past
        (classify loader ⟨root, some w, none⟩ file package.name)) := by
  let s : Surroundings := ⟨root, some w, none⟩
  have kept := SourceCache.grants_kept hindex
  have hstart : Knowledge.OfSources (SourceCache.Grants (package.path / "index.js")) {} := by
    simp [Knowledge.OfSources, SourceCache.Grants]
  have hafter := Knowledge.runAfter_always (Knowledge.ask_kept kept root) hstart past
    (byOwnRules_kept kept s file package.name)
  have hnothing := hown.and_fst (hafter.mono fun _ hresult => hresult.2)
  -- `hown` is about a run that ends here: the rest of the classification starts from a memory of
  -- which only what the past and the own rules keep is known.
  have hrun : Knowledge.runAfter loader root past (classify loader s file package.name)
      = (do
        let (answer, knowledge) ← Knowledge.runAfter loader root past
          (byOwnRules loader s file package.name)
        StateT.run (do
          match answer with
          | some dependency => return .localFile dependency
          | none =>
              match ← byWorkspace loader s package.name with
              | some dependency => return .localFile dependency
              | none => return .external package.name) knowledge) := by
    unfold Knowledge.runAfter
    rw [classify_bare_eq hlocal hscheme]
    simp
  rw [hrun]
  refine hnothing.bind fun result hresult => ?_
  obtain ⟨answer, knowledge⟩ := result
  obtain ⟨rfl, hknowledge⟩ := hresult
  have hfound : Ensures _ (byWorkspace loader s package.name) _ :=
    byWorkspace_finds rfl hpackage hself hindex hname
  have hlast : Ensures (Knowledge.OfSources (SourceCache.Grants (package.path / "index.js")))
      (do
        match ← byWorkspace loader s package.name with
        | some dependency => return .localFile dependency
        | none => return .external package.name) fun answer =>
      ∃ path, answer = Classification.localFile
        ⟨package.name, path, .workspace package.name⟩ := by
    refine hfound.bind fun found hfound => ?_
    obtain ⟨path, rfl⟩ := hfound
    exact .pure ⟨path, rfl⟩
  exact (hlast knowledge hknowledge).mono fun _ hresult => hresult.1

end

namespace Loader

section

variable {loader : Loader Id} (fixed : loader.Fixed)

include fixed

theorem Fixed.alwaysHas {file : Path} (h : loader.has file = true) : loader.AlwaysHas file := by
  intro path hpath
  rw [always_id]
  exact (fixed.has_congr hpath).trans h

variable (loader) in
omit fixed in
/-- Where the project of a file itself looks for a bare specifier. -/
def ownAttempts (s : Surroundings) (file : SourceFile) (specifier : String) : List Attempt :=
  let config := loader.configFor s.root file.directory
  (match config with
    | none => []
    | some config => aliasAttempts s config specifier ++ baseAttempts s config specifier)
    ++ loader.packageAttempts s file.directory config specifier

theorem byOwnRules_ensures (s : Surroundings) (file : SourceFile) (specifier : String) :
    Ensures (Knowledge.Sound loader s.root) (Classifier.byOwnRules loader s file specifier)
      (Option.Rel LocalDependency.Alike ·
        ((loader.ownAttempts s file specifier).findSome? (loader.outcome specifier))) := by
  unfold Classifier.byOwnRules ownAttempts Classifier.ownRules
  refine (Knowledge.configFor_ensures fixed rfl).bind fun config hconfig => ?_
  simp only
  generalize loader.configFor s.root file.directory = other at hconfig ⊢
  have hpackage := Classifier.byPackage_ensures fixed s (d := file.directory) rfl hconfig specifier
  rw [List.findSome?_append]
  cases hconfig with
  | none =>
      simp only [List.nil_append, List.findSome?_nil, Option.none_or]
      rw [Classifier.firstSome_singleton]
      exact hpackage
  | some halike =>
      rw [List.findSome?_append, Option.or_assoc]
      apply Classifier.firstSome_cons_ensures (Classifier.byAlias_ensures fixed s halike specifier)
      apply Classifier.firstSome_cons_ensures (Classifier.byBase_ensures fixed s halike specifier)
      rw [← Classifier.firstSome_singleton (Classifier.byPackage _ _ _ _ _)] at hpackage
      exact hpackage

/-- After any past, nothing is found where all attempts fail. -/
theorem byOwnRules_eq_none {s : Surroundings} {file : SourceFile} {specifier : String}
    (h : (loader.ownAttempts s file specifier).findSome? (loader.outcome specifier) = none)
    (past : List Question) :
    Knowledge.valueAfter loader s.root past (Classifier.byOwnRules loader s file specifier)
      = none := by
  have hvalue := Knowledge.valueAfter_of_ensures fixed past
    (byOwnRules_ensures fixed s file specifier)
  rw [h] at hvalue
  cases hnone : Knowledge.valueAfter loader s.root past
      (Classifier.byOwnRules loader s file specifier) with
  | none => rfl
  | some d =>
      rw [hnone] at hvalue
      cases hvalue

end

def uiPackage : Package := ⟨"ui", ⟨"/w/lib/ui"⟩, none⟩

def chartsPackage : Package := ⟨"charts", ⟨"/w/lib/charts.js"⟩, none⟩

/-- A workspace of two members, one of them in a directory that is named as a file. -/
def chartsWorkspace : Workspace :=
  ⟨⟨"w", ⟨"/w"⟩, none⟩, [uiPackage, chartsPackage]⟩

def chartsProject : Loader Id :=
  .ofTexts [
    ([.root, .name "w", .name "package.json"], "\x7b\x7d"),
    ([.root, .name "w", .name "apps", .name "a.js"], ""),
    ([.root, .name "w", .name "lib", .name "ui", .name "index.js"], ""),
    ([.root, .name "w", .name "lib", .name "charts.js", .name "index.js"], "")]

def chartsImporter : SourceFile := ⟨⟨"/w/apps/a.js"⟩, ""⟩

theorem chartsProject_has : ∀ package ∈ chartsWorkspace.members,
    chartsProject.has (package.path / "index.js") = true := by
  decide +kernel

theorem chartsProject_own : ∀ package ∈ chartsWorkspace.members,
    (chartsProject.ownAttempts ⟨none, some chartsWorkspace, none⟩ chartsImporter
      package.name).findSome? (chartsProject.outcome package.name) = none := by
  decide +kernel

theorem chartsProject_meaning :
    chartsProject.meaning ⟨none, some chartsWorkspace, none⟩ chartsImporter chartsPackage.name
      = .external "charts" := by
  decide +kernel

theorem classify_bare_name_ui :
    Candidate.isFileName uiPackage.path = false ∧
      ∃ path, Knowledge.valueAfter chartsProject none [.probe ⟨"/w/lib/ui/index.ts"⟩]
        (Classifier.classify chartsProject ⟨none, some chartsWorkspace, none⟩ chartsImporter
          uiPackage.name) = .localFile ⟨"ui", path, .workspace "ui"⟩ := by
  have fixed : chartsProject.Fixed := ofTexts_fixed _
  have hmember : uiPackage ∈ chartsWorkspace.members := List.mem_cons_self
  have hname : Candidate.isFileName uiPackage.path = false := by decide +kernel
  have hpackage : chartsWorkspace.byName uiPackage.name = some uiPackage := by decide
  have hown := byOwnRules_eq_none fixed (chartsProject_own uiPackage hmember)
    [.probe ⟨"/w/lib/ui/index.ts"⟩]
  have hclassify := Classifier.classify_bare_name chartsProject none hpackage (by decide)
    (by decide) (by decide) hname (fixed.alwaysHas (chartsProject_has uiPackage hmember))
    [.probe ⟨"/w/lib/ui/index.ts"⟩] chartsImporter (always_id.2 hown)
  obtain ⟨path, hpath⟩ := always_id.1 hclassify
  exact ⟨hname, path, hpath⟩

/-- A package in a directory that is named as a file is taken for a module from elsewhere, though
its index is there and nothing else has its name. -/
theorem classify_bare_name_charts :
    chartsWorkspace.byName chartsPackage.name = some chartsPackage ∧
      Specifier.packageName chartsPackage.name = chartsPackage.name ∧
      Specifier.isLocal chartsPackage.name = false ∧
      Specifier.hasScheme chartsPackage.name = false ∧
      chartsProject.AlwaysHas (chartsPackage.path / "index.js") ∧
      Knowledge.valueAfter chartsProject none [] (Classifier.byOwnRules chartsProject
        ⟨none, some chartsWorkspace, none⟩ chartsImporter chartsPackage.name) = none ∧
      Knowledge.valueAfter chartsProject none [] (Classifier.classify chartsProject
        ⟨none, some chartsWorkspace, none⟩ chartsImporter chartsPackage.name)
          = .external "charts" := by
  have fixed : chartsProject.Fixed := ofTexts_fixed _
  have hmember : chartsPackage ∈ chartsWorkspace.members :=
    List.mem_cons_of_mem _ List.mem_cons_self
  have hindex := fixed.alwaysHas (chartsProject_has chartsPackage hmember)
  have hown := byOwnRules_eq_none fixed (chartsProject_own chartsPackage hmember) []
  have hmeaning := Knowledge.valueAfter_classify fixed
    (s := ⟨none, some chartsWorkspace, none⟩) [] chartsImporter chartsPackage.name
  rw [chartsProject_meaning] at hmeaning
  exact ⟨by decide, by decide, by decide, by decide, hindex, hown, hmeaning.of_external⟩

end Loader

end ModuleTrace
