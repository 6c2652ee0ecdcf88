import ModuleTrace.Proofs.Traversal.Transparency
import ModuleTrace.Proofs.Traversal.Zone
import ModuleTrace.Proofs.Workspace.Packages

/-!
# Containment of restricted traversals

A restricted session draws the boundary of a file around the innermost package that holds it, and
moves it only to a package that a specifier names. The packages of a workspace are therefore a
zone, and without a workspace the root of the session is one.
-/

namespace ModuleTrace

namespace Session

/-! ## Boundaries -/

section

variable {m : Type → Type} {s : Session m} (restricted : s.options.isRestricted = true)

include restricted

theorem boundary_of_byPath {w : Workspace} (hw : s.workspace = some w) {file : SourceFile}
    {package : Package} (h : w.byPath file.path = some package) :
    s.boundary file = some package.path := by
  simp [boundary, restricted, hw, h]

theorem boundary_of_root {root : Path} (hw : s.workspace = none)
    (hroot : s.options.root = some root) (file : SourceFile) : s.boundary file = some root := by
  simp [boundary, restricted, hw, hroot]

/-- A dependency of a file in a package lies in that package, or in one that its specifier
names. -/
theorem Confines.in_package {w : Workspace} (hw : s.workspace = some w) {file : SourceFile}
    {package : Package} (hpackage : w.byPath file.path = some package) {analysis : Analysis}
    (h : s.Confines file analysis) {d : LocalDependency}
    (hd : d ∈ analysis.dependencies.locals) :
    d.path.isUnder package.path = true ∨ ∃ other,
      w.byName (Specifier.packageName d.specifier) = some other ∧
        d.rule = .workspace other.name ∧ d.path.isUnder other.path = true := by
  have hboundary := boundary_of_byPath restricted hw hpackage
  have hworkspace : (s.surroundings file).workspace = some w := hw
  rcases h.admits d hd with hpermits | ⟨other, hname, hrule, hpermits⟩
  · left
    simpa [Surroundings.permits, surroundings, hboundary] using hpermits
  · right
    refine ⟨other, by simpa [hworkspace] using hname, hrule, ?_⟩
    simpa [Surroundings.permits, Surroundings.inside, surroundings, hboundary] using hpermits

theorem Confines.in_root {root : Path} (hw : s.workspace = none)
    (hroot : s.options.root = some root) {file : SourceFile} {analysis : Analysis}
    (h : s.Confines file analysis) {d : LocalDependency}
    (hd : d ∈ analysis.dependencies.locals) : d.path.isUnder root = true := by
  have hboundary := boundary_of_root restricted hw hroot file
  have hworkspace : (s.surroundings file).workspace = none := hw
  rcases h.admits d hd with hpermits | ⟨other, hname, _⟩
  · simpa [Surroundings.permits, surroundings, hboundary] using hpermits
  · simp [hworkspace] at hname

end

/-! ## Zones of restricted sessions -/

section

variable {m : Type → Type} {s : Session m} (restricted : s.options.isRestricted = true)

/-- Paths that lie in a package of a workspace and lead up in their last part at most. -/
def InPackages (w : Workspace) (path : Path) : Prop :=
  path.NearlyClean ∧ ∃ package ∈ w.packages, path.isUnder package.path = true

def packagesZone {w : Workspace} (hw : s.workspace = some w) (normal : w.Normal) : s.Zone where
  Start := InPackages w
  Holds := InPackages w
  start_congr p q h hp := ⟨hp.1.congr h, by simpa [Path.isUnder_congr h] using hp.2⟩
  holds_congr p q h hp := ⟨hp.1.congr h, by simpa [Path.isUnder_congr h] using hp.2⟩
  step file analysis hfile h d hd := by
    have hfile : InPackages w file.path := hfile.elim id id
    obtain ⟨hnearly, package, hpackage, hunder⟩ := hfile
    have hclean := clean_of_kind? hnearly h.kind
    have hs : (s.surroundings file).Clean := by
      intro workspace name named hworkspace hname
      have hsame : workspace = w := Option.some.inj (hworkspace.symm.trans hw)
      exact normal.clean (hsame ▸ Workspace.mem_of_byName hname)
    refine ⟨h.clean hclean hs d hd, ?_⟩
    obtain ⟨holder, hholder⟩ := Workspace.exists_byPath hpackage hunder
    rcases h.in_package restricted hw hholder hd with hin | ⟨other, hname, _, hin⟩
    · exact ⟨holder, (Workspace.mem_of_byPath hholder).1, hin⟩
    · exact ⟨other, Workspace.mem_of_byName hname, hin⟩

def rootZone {root : Path} (hw : s.workspace = none) (hroot : s.options.root = some root) :
    s.Zone where
  Start := Path.NearlyClean
  Holds path := path.NearlyClean ∧ path.isUnder root = true
  start_congr p q h hp := hp.congr h
  holds_congr p q h hp := ⟨hp.1.congr h, by rw [Path.isUnder_congr h.symm, hp.2]⟩
  step file analysis hfile h d hd := by
    have hnearly : file.path.NearlyClean := hfile.elim id And.left
    have hclean := clean_of_kind? hnearly h.kind
    have hs : (s.surroundings file).Clean := by
      intro workspace name named hworkspace
      cases hworkspace.symm.trans hw
    exact ⟨h.clean hclean hs d hd, h.in_root restricted hw hroot hd⟩

end

/-! ## Containment -/

/-- A dependency of a file lies in the package of the file, or it was found by the name of a
package and lies there. -/
def LiesInPackage (w : Workspace) (file : SourceFile) (d : LocalDependency) : Prop :=
  (∃ package, w.byPath file.path = some package ∧ d.path.isUnder package.path = true) ∨
    ∃ package, d.rule = .workspace package.name ∧
      w.byName (Specifier.packageName d.specifier) = some package ∧
      d.path.isUnder package.path = true

/-- What was reached lies in packages of a workspace by paths without steps up. What is recorded of
the files lies in their own packages or in those that are named, also where it cannot be read, and
its paths lead up in their last parts at most. -/
structure StaysInPackages (w : Workspace) (reach : Reach) (memory : Memory) : Prop where
  files : ∀ file ∈ reach.files, .up ∉ file.path.parts ∧
    ∃ package ∈ w.packages, file.path.isUnder package.path = true
  dependencies : ∀ file ∈ reach.entrypoint :: reach.files, ∃ analysis,
    memory.analyses[file.path.parts]? = some analysis ∧
      ∀ d ∈ analysis.dependencies.locals, d.path.NearlyClean ∧ LiesInPackage w file d

/-- What was reached lies in a directory by paths without steps up. -/
def StaysInRoot (root : Path) (reach : Reach) : Prop :=
  ∀ file ∈ reach.files, .up ∉ file.path.parts ∧ file.path.isUnder root = true

section

variable {m : Type → Type} {s : Session m} (restricted : s.options.isRestricted = true)

include restricted

theorem staysInPackages_of_contains {w : Workspace} (hw : s.workspace = some w) (normal : w.Normal)
    {reach : Reach} {memory : Memory}
    (h : (packagesZone restricted hw normal).Contains reach memory) :
    StaysInPackages w reach memory := by
  refine ⟨fun file hfile => ?_, fun file hfile => ?_⟩
  · obtain ⟨hnearly, hpackage⟩ := h.files file hfile
    obtain ⟨analysis, _, hconfines⟩ := h.analyses file (List.mem_cons_of_mem _ hfile)
    exact ⟨(clean_of_kind? hnearly hconfines.kind).no_up, hpackage⟩
  · obtain ⟨analysis, hrecorded, hconfines⟩ := h.analyses file hfile
    have hzone : InPackages w file.path := by
      rcases List.mem_cons.1 hfile with rfl | hfile
      · exact h.entrypoint
      · exact h.files file hfile
    refine ⟨analysis, hrecorded, fun d hd => ⟨?_, ?_⟩⟩
    · exact ((packagesZone restricted hw normal).step file analysis (.inl hzone) hconfines d hd).1
    · obtain ⟨_, package, hpackage, hunder⟩ := hzone
      obtain ⟨holder, hholder⟩ := Workspace.exists_byPath hpackage hunder
      rcases hconfines.in_package restricted hw hholder hd with hin | ⟨other, hname, hrule, hin⟩
      · exact .inl ⟨holder, hholder, hin⟩
      · exact .inr ⟨other, hrule, hname, hin⟩

theorem staysInRoot_of_contains {root : Path} (hw : s.workspace = none)
    (hroot : s.options.root = some root) {reach : Reach} {memory : Memory}
    (h : (rootZone restricted hw hroot).Contains reach memory) : StaysInRoot root reach := by
  intro file hfile
  obtain ⟨hnearly, hunder⟩ := h.files file hfile
  obtain ⟨analysis, _, hconfines⟩ := h.analyses file (List.mem_cons_of_mem _ hfile)
  exact ⟨(clean_of_kind? hnearly hconfines.kind).no_up, hunder⟩

variable [Monad m] [LawfulMonad m]

/-- Restricted traversals are contained, whatever the loader answers and whatever was called
before: from a package of a workspace they stay in its packages, and without a workspace in the
root. -/
theorem collect_stays (calls : List (Call m)) {e : Path} (absolute : e.isAbsolute = true) :
    Always (fun result => ∀ reach, result.1 = .ok reach →
        (∀ w, s.workspace = some w → w.Normal →
          (∃ package ∈ w.packages, e.normalize.isUnder package.path = true) →
          StaysInPackages w reach result.2) ∧
        (∀ root, s.workspace = none → s.options.root = some root → StaysInRoot root reach))
      ((do s.performAll calls; s.collect e).run {}) := by
  cases hw : s.workspace with
  | none =>
      cases hroot : s.options.root with
      | none => exact (Always.top _).mono fun _ _ _ _ => ⟨by simp, by simp⟩
      | some root =>
          have hstart : e.normalize.NearlyClean := (Path.clean_normalize absolute).nearly
          have hcontained := collect_contained (rootZone restricted hw hroot) hstart calls
          refine hcontained.mono fun result h reach hreach => ⟨by simp, ?_⟩
          rintro _ - ⟨⟩
          exact staysInRoot_of_contains restricted hw hroot (h reach hreach)
  | some w =>
      by_cases hplace : w.Normal ∧ ∃ package ∈ w.packages, e.normalize.isUnder package.path = true
      · obtain ⟨normal, hplace⟩ := hplace
        have hstart : InPackages w e.normalize := ⟨(Path.clean_normalize absolute).nearly, hplace⟩
        have hcontained := collect_contained (packagesZone restricted hw normal) hstart calls
        refine hcontained.mono fun result h reach hreach => ⟨?_, by simp⟩
        rintro _ ⟨⟩ - -
        exact staysInPackages_of_contains restricted hw normal (h reach hreach)
      · refine (Always.top _).mono fun _ _ _ _ => ⟨?_, by simp⟩
        rintro _ ⟨⟩ normal hunder
        exact absurd ⟨normal, hunder⟩ hplace

end

/-- Two packages with three files. The first file asks for one of its own package, and for one of
the other package by its path and by its name. -/
def fenced (workspace : Option Workspace) : Session Id where
  loader := .ofTexts [([.root, .name "w", .name "a", .name "x.js"], "x"),
    ([.root, .name "w", .name "a", .name "y.js"], "y"),
    ([.root, .name "w", .name "b", .name "z.js"], "z")]
  extractor := .ofTexts [("x", .specifiers ["./y.js", "../b/z.js", "b/z.js"]),
    ("z", .specifiers ["../a/y.js"])]
  options := { isRestricted := true, root := some ⟨"/w/a"⟩ }
  workspace

def twoPackages : Workspace where
  root := ⟨"w", ⟨"/w"⟩, none⟩
  members := [⟨"a", ⟨"/w/a"⟩, none⟩, ⟨"b", ⟨"/w/b"⟩, none⟩]

theorem fenced_collectPlain :
    ((fenced (some twoPackages)).collectPlain ⟨"/w/a/x.js"⟩).toOption.map
        (fun reach => (reach.files.map SourceFile.path, reach.missing))
      = some ([⟨"/w/a/y.js"⟩, ⟨"/w/b/z.js"⟩], [⟨"/w/b/z.js"⟩, ⟨"/w/a/y.js"⟩]) ∧
    ((fenced none).collectPlain ⟨"/w/a/x.js"⟩).toOption.map
        (fun reach => (reach.files.map SourceFile.path, reach.missing))
      = some ([⟨"/w/a/y.js"⟩], [⟨"/w/b/z.js"⟩]) := by
  decide +kernel

theorem fenced_reaches {workspace : Option Workspace} {e : Path} {paths missing : List Path}
    (h : ((fenced workspace).collectPlain e).toOption.map
      (fun reach => (reach.files.map SourceFile.path, reach.missing)) = some (paths, missing))
    (calls : List (Call Id)) :
    ∃ reach, ((do (fenced workspace).performAll calls; (fenced workspace).collect e :
        StateT Memory Id _).run {}).run.1 = .ok reach ∧ reach.files.length = paths.length := by
  have hpaths : ((fenced workspace).collectPlain e).toOption.map
      (fun reach => reach.files.map SourceFile.path) = some paths := by
    simpa [Option.map_map, Function.comp_def] using congrArg (Option.map Prod.fst) h
  obtain ⟨reach, hreach, hfiles⟩ := exists_collect_files (Loader.ofTexts_fixed _) calls hpaths
  exact ⟨reach, hreach, hfiles.length_eq⟩

theorem collect_stays_fenced :
    (fenced (some twoPackages)).options.isRestricted = true ∧
      (Path.mk "/w/a/x.js").isAbsolute = true ∧ twoPackages.Normal ∧
      (∃ reach memory, ((do
          (fenced (some twoPackages)).performAll [.resolve ⟨"../z.js"⟩, .collect ⟨"/w/b/z.js"⟩]
          (fenced (some twoPackages)).collect ⟨"/w/a/x.js"⟩ : StateT Memory Id _).run {}).run
            = (.ok reach, memory) ∧
        reach.files.length = 2 ∧ StaysInPackages twoPackages reach memory) ∧
      ∃ reach memory, ((do
          (fenced none).performAll [.collect ⟨"/w/b/z.js"⟩]
          (fenced none).collect ⟨"/w/a/x.js"⟩ : StateT Memory Id _).run {}).run
            = (.ok reach, memory) ∧
        reach.files.length = 1 ∧ StaysInRoot ⟨"/w/a"⟩ reach := by
  have habsolute : (Path.mk "/w/a/x.js").isAbsolute = true := by decide
  have hnormal : twoPackages.Normal := by
    unfold Workspace.Normal
    decide
  have hplace : ∃ package ∈ twoPackages.packages,
      (Path.mk "/w/a/x.js").normalize.isUnder package.path = true :=
    ⟨twoPackages.root, List.mem_cons_self, by decide⟩
  refine ⟨rfl, habsolute, hnormal, ?_, ?_⟩
  · obtain ⟨reach, hreach, hlength⟩ := fenced_reaches fenced_collectPlain.1
      [.resolve ⟨"../z.js"⟩, .collect ⟨"/w/b/z.js"⟩]
    have hstays := always_id.1 (collect_stays (s := fenced (some twoPackages)) rfl
      [.resolve ⟨"../z.js"⟩, .collect ⟨"/w/b/z.js"⟩] habsolute) reach hreach
    exact ⟨reach, _, Prod.ext hreach rfl, hlength, hstays.1 twoPackages rfl hnormal hplace⟩
  · obtain ⟨reach, hreach, hlength⟩ := fenced_reaches fenced_collectPlain.2
      [.collect ⟨"/w/b/z.js"⟩]
    have hstays := always_id.1 (collect_stays (s := fenced none) rfl
      [.collect ⟨"/w/b/z.js"⟩] habsolute) reach hreach
    exact ⟨reach, _, Prod.ext hreach rfl, hlength, hstays.2 ⟨"/w/a"⟩ rfl rfl⟩

end Session

end ModuleTrace
