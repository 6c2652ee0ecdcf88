import Mathlib.Data.List.Chain
import ModuleTrace.Proofs.Project.Settings

/-!
# Inherited options

A configuration and all that it extends are visited one by one: a file, then what it extends from
the last one to the first, each with what that extends itself. The first file that sets an option
decides it. Files that cannot be used are passed by, with all that only they lead to.
-/

namespace ModuleTrace

namespace ConfigFile

/-! ## Files one by one -/

section

variable (read : Path → Option String)

def at? (path : Path) : Option ConfigFile :=
  (read path).bind fun contents => (Json.parse? (Json.strict contents)).map (⟨path, ·⟩)

def Extends (file parent : ConfigFile) : Prop :=
  ∃ paths, file.Parents paths ∧ ∃ path ∈ paths, at? read path = some parent

theorem extends_iff {file parent : ConfigFile} :
    Extends read file parent ↔ ∃ path ∈ file.parents, at? read path = some parent := by
  simp only [Extends, parents_iff, exists_eq_left]

/-- No chain of extensions from a file is longer than some number. -/
def ChainsWithin (n : Nat) (file : ConfigFile) : Prop :=
  ∀ chain, (file :: chain).IsChain (Extends read) → chain.length ≤ n

/-- The files that are met on a visit of some paths, each with all that it extends before the
next one. -/
inductive Visits : List Path → List ConfigFile → Prop
  | done : Visits [] []
  | passedBy {path : Path} {rest : List Path} {files : List ConfigFile}
      (h : at? read path = none) (hrest : Visits rest files) : Visits (path :: rest) files
  | file {path : Path} {rest parents : List Path} {file : ConfigFile} {files : List ConfigFile}
      (h : at? read path = some file) (hparents : file.Parents parents)
      (hrest : Visits (parents.reverse ++ rest) files) : Visits (path :: rest) (file :: files)

variable {read} {paths more : List Path} {files others : List ConfigFile}

/-- A visit meets the same files whenever it is made. -/
theorem Visits.unique (h : Visits read paths files) (h' : Visits read paths others) :
    files = others := by
  induction h generalizing others with
  | done =>
      cases h'
      rfl
  | passedBy hnone _ ih =>
      cases h' with
      | passedBy _ hrest => exact ih hrest
      | file hfile => rw [hnone] at hfile; cases hfile
  | file hfile hparents _ ih =>
      cases h' with
      | passedBy hnone _ => rw [hnone] at hfile; cases hfile
      | file hfile' hparents' hrest =>
          obtain rfl := Option.some.inj (hfile.symm.trans hfile')
          obtain rfl := (parents_iff _).1 hparents
          obtain rfl := (parents_iff _).1 hparents'
          rw [ih hrest]

theorem Visits.append (h : Visits read paths files) (h' : Visits read more others) :
    Visits read (paths ++ more) (files ++ others) := by
  induction h with
  | done => exact h'
  | passedBy hnone _ ih => exact .passedBy hnone ih
  | file hfile hparents _ ih =>
      rw [List.append_assoc] at ih
      exact .file hfile hparents ih

theorem Visits.singleton {path : Path} {file : ConfigFile} (h : at? read path = some file)
    (hfiles : Visits read file.parents.reverse files) : Visits read [path] (file :: files) :=
  .file h ((parents_iff _).2 rfl) (by rwa [List.append_nil])

theorem Visits.of_none (h : ∀ path ∈ paths, at? read path = none) : Visits read paths [] := by
  induction paths with
  | nil => exact .done
  | cons path rest ih =>
      exact .passedBy (h path List.mem_cons_self) (ih fun p hp => h p (List.mem_cons_of_mem _ hp))

/-! ## Chains of extensions -/

variable {n : Nat} {file other : ConfigFile}

theorem ChainsWithin.parent (h : ChainsWithin read (n + 1) file)
    (hextends : Extends read file other) : ChainsWithin read n other := by
  intro chain hchain
  have hlength := h (other :: chain) (.cons_cons hextends hchain)
  simpa using hlength

theorem ChainsWithin.not_extends (h : ChainsWithin read 0 file) : ¬ Extends read file other := by
  intro hextends
  have hlength := h [other] (.cons_cons hextends (.singleton other))
  simp at hlength

theorem ChainsWithin.mono {k : Nat} (h : ChainsWithin read n file) (hle : n ≤ k) :
    ChainsWithin read k file :=
  fun chain hchain => (h chain hchain).trans hle

variable (read)

/-- Follows all chains of extensions to their ends. -/
def chainsEnd : Nat → ConfigFile → Bool
  | 0, file => file.parents.all fun path => (at? read path).isNone
  | n + 1, file => file.parents.all fun path => (at? read path).all (chainsEnd n)

variable {read}

theorem chainsWithin_of_chainsEnd (h : chainsEnd read n file = true) :
    ChainsWithin read n file := by
  intro chain hchain
  induction n generalizing file chain with
  | zero =>
      cases hchain with
      | singleton => exact le_rfl
      | cons_cons hextends =>
          obtain ⟨path, hpath, hat⟩ := (extends_iff read).1 hextends
          have hnone := List.all_eq_true.1 h path hpath
          simp [hat] at hnone
  | succ n ih =>
      cases hchain with
      | singleton => exact Nat.zero_le _
      | cons_cons hextends hrest =>
          obtain ⟨path, hpath, hat⟩ := (extends_iff read).1 hextends
          have hparent := List.all_eq_true.1 h path hpath
          rw [hat] at hparent
          exact Nat.succ_le_succ (ih hparent _ hrest)

end

end ConfigFile

/-! ## Options of many files -/

namespace ConfigOptions

def ofFiles (files : List ConfigFile) : ConfigOptions :=
  files.foldr (fun file inherited => file.options.extending inherited) {}

theorem extending_empty (options : ConfigOptions) : options.extending {} = options := by
  simp [extending]

theorem empty_extending (options : ConfigOptions) : extending {} options = options := by
  simp [extending]

theorem extending_assoc (a b c : ConfigOptions) :
    (a.extending b).extending c = a.extending (b.extending c) := by
  simp [extending, Option.or_assoc]

theorem ofFiles_cons (file : ConfigFile) (files : List ConfigFile) :
    ofFiles (file :: files) = file.options.extending (ofFiles files) := rfl

theorem ofFiles_append (files others : List ConfigFile) :
    ofFiles (files ++ others) = (ofFiles files).extending (ofFiles others) := by
  induction files with
  | nil => exact (empty_extending _).symm
  | cons file files ih => rw [List.cons_append, ofFiles_cons, ofFiles_cons, ih, extending_assoc]

/-- An option is what the first file says that sets it. -/
theorem ofFiles_option {α : Type} (option : ConfigOptions → Option α)
    (hnone : option {} = none)
    (hextending : ∀ own inherited : ConfigOptions,
      option (own.extending inherited) = (option own <|> option inherited))
    (files : List ConfigFile) :
    option (ofFiles files) = files.findSome? fun file => option file.options := by
  induction files with
  | nil => exact hnone
  | cons file files ih =>
      rw [ofFiles_cons, hextending, ih, List.findSome?_cons]
      cases option file.options <;> rfl

end ConfigOptions

/-! ## Loading -/

namespace ProjectConfig

open ConfigFile ConfigOptions

section

variable {m : Type → Type} [Monad m]

/-- Puts what a file says before what is inherited already. -/
def inherit (read : Path → m (Option String)) (depth : Nat) (inherited : ConfigOptions)
    (path : Path) : m ConfigOptions := do
  match ← read path with
  | none => return inherited
  | some contents =>
      match ← loadOptions read depth path contents with
      | .ok options => return options.extending inherited
      | .error _ => return inherited

theorem loadOptions_invalid (read : Path → m (Option String)) (depth : Nat) (path : Path)
    {contents : String} (h : Json.parse? (Json.strict contents) = none) :
    loadOptions read depth path contents = pure (.error (.invalidJson path)) := by
  unfold loadOptions
  simp only [h]

section

variable {file : ConfigFile} {contents : String}
  (hjson : Json.parse? (Json.strict contents) = some file.json)

include hjson

theorem loadOptions_zero (read : Path → m (Option String)) :
    loadOptions read 0 file.path contents = pure (.ok file.options) := by
  unfold loadOptions
  simp only [hjson]
  exact congrArg _ (congrArg _ file.ofJson_eq_options)

theorem loadOptions_succ (read : Path → m (Option String)) (depth : Nat) :
    loadOptions read (depth + 1) file.path contents = do
      let inherited ← file.parents.foldlM (inherit read depth) {}
      return .ok (file.options.extending inherited) := by
  rw [← file.ofJson_eq_options]
  rw [loadOptions]
  simp only [hjson]
  rfl

end

variable [LawfulMonad m]

/-- Steps that each put a file and all that it extends before what was there put all visited files
before it, the last ones first. -/
theorem foldlM_visits {read : Path → Option String}
    {step : ConfigOptions → Path → m ConfigOptions} {paths : List Path}
    (hnone : ∀ inherited, ∀ path ∈ paths, at? read path = none →
      step inherited path = pure inherited)
    (hfile : ∀ inherited, ∀ path ∈ paths, ∀ file, at? read path = some file →
      ∃ files, Visits read file.parents.reverse files ∧
        step inherited path = pure ((ofFiles (file :: files)).extending inherited))
    (inherited : ConfigOptions) : ∃ files, Visits read paths.reverse files ∧
      paths.foldlM step inherited = pure ((ofFiles files).extending inherited) := by
  induction paths generalizing inherited with
  | nil => exact ⟨[], .done, by rw [List.foldlM_nil]; exact congrArg _ (empty_extending _).symm⟩
  | cons path rest ih =>
      have hrest := ih (fun inherited p hp => hnone inherited p (List.mem_cons_of_mem _ hp))
        (fun inherited p hp => hfile inherited p (List.mem_cons_of_mem _ hp))
      rw [List.reverse_cons, List.foldlM_cons]
      cases hat : at? read path with
      | none =>
          obtain ⟨files, hvisits, hfold⟩ := hrest inherited
          refine ⟨files, ?_, ?_⟩
          · have hpassed : Visits read [path] [] := .passedBy hat .done
            simpa using hvisits.append hpassed
          · rw [hnone inherited path List.mem_cons_self hat, pure_bind, hfold]
      | some file =>
          obtain ⟨own, hown, hstep⟩ := hfile inherited path List.mem_cons_self file hat
          obtain ⟨files, hvisits, hfold⟩ := hrest ((ofFiles (file :: own)).extending inherited)
          refine ⟨files ++ file :: own, hvisits.append (.singleton hat hown), ?_⟩
          rw [hstep, pure_bind, hfold, ← extending_assoc, ← ofFiles_append]

/-- The options of a file are those of all files that a visit meets. -/
theorem loadOptions_visits {read : Path → Option String} {depth : Nat} {file : ConfigFile}
    {contents : String} (hjson : Json.parse? (Json.strict contents) = some file.json)
    (hchains : ChainsWithin read depth file) :
    ∃ files, Visits read file.parents.reverse files ∧
      loadOptions (m := m) (fun path => pure (read path)) depth file.path contents
        = pure (.ok (ofFiles (file :: files))) := by
  induction depth generalizing file contents with
  | zero =>
      refine ⟨[], .of_none fun path hpath => ?_, ?_⟩
      · cases hat : at? read path with
        | none => rfl
        | some other =>
            have hextends : Extends read file other :=
              (extends_iff read).2 ⟨path, List.mem_reverse.1 hpath, hat⟩
            exact absurd hextends hchains.not_extends
      · rw [loadOptions_zero hjson, ofFiles_cons]
        exact congrArg _ (congrArg _ (extending_empty _).symm)
  | succ depth ih =>
      have hnone : ∀ inherited, ∀ path ∈ file.parents, at? read path = none →
          inherit (m := m) (fun path => pure (read path)) depth inherited path
            = pure inherited := by
        intro inherited path _ hat
        cases hread : read path with
        | none => simp only [inherit, hread, pure_bind]
        | some contents =>
            have hinvalid : Json.parse? (Json.strict contents) = none := by
              simpa [at?, hread] using hat
            simp only [inherit, hread, pure_bind, loadOptions_invalid _ _ _ hinvalid]
      have hfile : ∀ inherited, ∀ path ∈ file.parents, ∀ other, at? read path = some other →
          ∃ files, Visits read other.parents.reverse files ∧
            inherit (m := m) (fun path => pure (read path)) depth inherited path
              = pure ((ofFiles (other :: files)).extending inherited) := by
        intro inherited path hpath other hat
        have hother := hchains.parent ((extends_iff read).2 ⟨path, hpath, hat⟩)
        obtain ⟨contents, hread, hparsed⟩ := Option.bind_eq_some_iff.1 hat
        obtain ⟨json, hjson, rfl⟩ := Option.map_eq_some_iff.1 hparsed
        obtain ⟨files, hvisits, hload⟩ := ih hjson hother
        refine ⟨files, hvisits, ?_⟩
        simp only [inherit, hread, pure_bind, hload]
      obtain ⟨files, hvisits, hfold⟩ := foldlM_visits hnone hfile {}
      refine ⟨files, hvisits, ?_⟩
      rw [loadOptions_succ hjson, hfold, pure_bind, extending_empty]
      rfl

end

/-! ## What a configuration inherits -/

/-- A value is what the first of some files says that sets one; none if no file does. -/
inductive FirstOf {α : Type} (Sets : ConfigFile → α → Prop) : List ConfigFile → Option α → Prop
  | set {before after : List ConfigFile} {file : ConfigFile} {value : α}
      (hbefore : ∀ other ∈ before, ∀ value, ¬ Sets other value) (h : Sets file value) :
      FirstOf Sets (before ++ file :: after) (some value)
  | unset {files : List ConfigFile} (h : ∀ file ∈ files, ∀ value, ¬ Sets file value) :
      FirstOf Sets files none

theorem firstOf_findSome? {α : Type} {Sets : ConfigFile → α → Prop} {get : ConfigFile → Option α}
    (hget : ∀ file value, Sets file value ↔ get file = some value) (files : List ConfigFile) :
    FirstOf Sets files (files.findSome? get) := by
  have hno : ∀ file, get file = none → ∀ value, ¬ Sets file value := by
    intro file hnone value hsets
    rw [(hget file value).1 hsets] at hnone
    cases hnone
  cases hfind : files.findSome? get with
  | none =>
      rw [List.findSome?_eq_none_iff] at hfind
      exact .unset fun file hfile => hno file (hfind file hfile)
  | some value =>
      obtain ⟨before, file, after, rfl, hvalue, hbefore⟩ := List.findSome?_eq_some_iff.1 hfind
      exact .set (fun other hother => hno other (hbefore other hother)) ((hget file value).2 hvalue)

/-- Aliases stand for patterns with their targets, the most specific first. They lead from a base
for all, or from the directory of the file that has the patterns. -/
def Aliases (base : Option Path) :
    Option (List (String × List String) × Path) → List Alias → Prop
  | none, aliases => aliases = []
  | some (entries, directory), aliases => ∃ unordered,
      List.Forall₂ (Alias.StandsFor (base.getD directory)) entries unordered ∧
        aliases = Alias.order unordered

/-- A configuration says what the first of some files says that sets an option. -/
structure Inherits (config : ProjectConfig) (files : List ConfigFile) : Prop where
  baseUrl : FirstOf (·.SetsPath "baseUrl") files config.baseUrl
  outDir : FirstOf (·.SetsPath "outDir") files config.outDir
  rootDir : FirstOf (·.SetsPath "rootDir") files config.rootDir
  rootDirs : ∃ value, FirstOf (·.SetsPaths "rootDirs") files value ∧
    config.rootDirs = value.getD []
  composite : ∃ value, FirstOf (·.SetsFlag "composite") files value ∧
    config.composite = value.getD false
  moduleResolution : ∃ value, FirstOf (·.SetsResolution) files value ∧
    config.moduleResolution = value.getD .node10
  aliases : ∃ value, FirstOf (·.SetsAliases) files value ∧
    Aliases config.baseUrl value config.aliases

theorem aliasesOf_aliases (options : ConfigOptions) :
    Aliases options.baseUrl options.paths (aliasesOf options) := by
  unfold aliasesOf
  cases options.paths with
  | none => rfl
  | some declared =>
      refine ⟨_, ?_, rfl⟩
      rw [List.forall₂_map_right_iff, List.forall₂_same]
      exact fun entry _ => Alias.of_standsFor _ entry

theorem ofOptions_inherits (path : Path) (files : List ConfigFile) :
    (ofOptions path (ofFiles files)).Inherits files := by
  have hfirst : ∀ {α : Type} {Sets : ConfigFile → α → Prop} (option : ConfigOptions → Option α),
      option {} = none → (∀ own inherited : ConfigOptions,
        option (own.extending inherited) = (option own <|> option inherited)) →
      (∀ file value, Sets file value ↔ option file.options = some value) →
      FirstOf Sets files (option (ofFiles files)) := by
    intro α Sets option hnone hextending hsets
    rw [ofFiles_option option hnone hextending]
    exact firstOf_findSome? hsets files
  have hpath : ∀ key (file : ConfigFile) value,
      file.SetsPath key value ↔ file.place? key = some value := fun _ _ _ => setsPath_iff
  exact
    { baseUrl := hfirst ConfigOptions.baseUrl rfl (fun _ _ => rfl) (hpath "baseUrl")
      outDir := hfirst ConfigOptions.outDir rfl (fun _ _ => rfl) (hpath "outDir")
      rootDir := hfirst ConfigOptions.rootDir rfl (fun _ _ => rfl) (hpath "rootDir")
      rootDirs :=
        ⟨_, hfirst ConfigOptions.rootDirs rfl (fun _ _ => rfl) fun _ _ => setsPaths_iff, rfl⟩
      composite :=
        ⟨_, hfirst ConfigOptions.composite rfl (fun _ _ => rfl) fun _ _ => setsFlag_iff, rfl⟩
      moduleResolution := ⟨_, hfirst ConfigOptions.moduleResolution rfl (fun _ _ => rfl)
        fun _ _ => setsResolution_iff, rfl⟩
      aliases := ⟨_, hfirst ConfigOptions.paths rfl (fun _ _ => rfl) fun _ _ => setsAliases_iff,
        aliasesOf_aliases _⟩ }

/-- Loading a configuration whose extensions end soon enough visits all that it extends, and each
option is what the first file says that sets it. Only a configuration that cannot be used itself
makes this fail. -/
theorem load_inherits {m : Type → Type} [Monad m] [LawfulMonad m] (read : Path → Option String)
    (path : Path)
    (hchains : ∀ file, at? read path = some file → ChainsWithin read 16 file) :
    (read path = none →
      load (m := m) (fun path => pure (read path)) path = pure (.error (.unreadable path))) ∧
    (∀ contents, read path = some contents → Json.parse? (Json.strict contents) = none →
      load (m := m) (fun path => pure (read path)) path = pure (.error (.invalidJson path))) ∧
    ∀ file, at? read path = some file → ∃ files,
      (∀ visited, Visits read [path] visited ↔ visited = file :: files) ∧
      ∃ config, load (m := m) (fun path => pure (read path)) path = pure (.ok config) ∧
        config.path = path ∧ config.Inherits (file :: files) := by
  refine ⟨fun hread => ?_, fun contents hread hinvalid => ?_, fun file hfile => ?_⟩
  · simp only [load, hread, pure_bind]
  · simp only [load, hread, pure_bind, parseWith, loadOptions_invalid _ _ _ hinvalid]
  · have hwithin : ChainsWithin read extensionDepth file := hchains file hfile
    obtain ⟨contents, hread, hparsed⟩ := Option.bind_eq_some_iff.1 hfile
    obtain ⟨json, hjson, rfl⟩ := Option.map_eq_some_iff.1 hparsed
    obtain ⟨files, hvisits, hload⟩ := loadOptions_visits (m := m) hjson hwithin
    have hwhole := hvisits.singleton hfile
    refine ⟨files, fun visited => ⟨fun h => h.unique hwhole, fun h => h ▸ hwhole⟩, _, ?_, ?_,
      ofOptions_inherits path _⟩
    · simp only [load, hread, pure_bind, parseWith, hload]
    · rfl

/-- Configurations in two directories. The first one extends three files, one of them not there,
and a package, and names a kind of resolution that there is not. The package has the name of a
file beside it. -/
def layered : Path → Option String := fun path =>
  [(⟨"/p/t.json"⟩, "\x7b\"extends\":[\"./b\",\"k\",\"./g\",\"/q/s.json\"]," ++
      "\"compilerOptions\":\x7b\"outDir\":\"d\",\"moduleResolution\":\"magic\"\x7d\x7d"),
    (⟨"/p/b.json"⟩, "\x7b\"compilerOptions\":\x7b\"outDir\":\"o\",\"baseUrl\":\"u\"," ++
      "\"moduleResolution\":\"Classic\"\x7d\x7d"),
    (⟨"/p/k.json"⟩, "\x7b\"compilerOptions\":\x7b\"baseUrl\":\"k\",\"composite\":true\x7d\x7d"),
    (⟨"/q/s.json"⟩, "\x7b\"compilerOptions\":\x7b\"rootDir\":\"r\"," ++
      "\"moduleResolution\":\"NodeNext\"," ++
      "\"paths\":\x7b\"@/*\":[\"*\",7,\"l/*.ts\"],\"#\":\"*\"\x7d\x7d\x7d")].lookup path

theorem load_inherits_layered :
    (∀ file, at? layered ⟨"/p/t.json"⟩ = some file → ChainsWithin layered 16 file) ∧
    ∃ file files config, at? layered ⟨"/p/t.json"⟩ = some file ∧
      (∀ visited, Visits layered [⟨"/p/t.json"⟩] visited ↔ visited = file :: files) ∧
      load (m := Id) (fun path => pure (layered path)) ⟨"/p/t.json"⟩ = pure (.ok config) ∧
      config.Inherits (file :: files) ∧ config.outDir = some ⟨"/p/d"⟩ ∧
      config.baseUrl = some ⟨"/p/u"⟩ ∧ config.rootDir = some ⟨"/q/r"⟩ ∧
      config.moduleResolution = .nodeNext ∧ config.composite = false ∧
      (Alias.allCandidates config.aliases "@/x").map AliasCandidate.path
        = [⟨"/p/u/x"⟩, ⟨"/p/u/l/x.ts"⟩] := by
  have hends : (at? layered ⟨"/p/t.json"⟩).any (chainsEnd layered 1) = true := by decide +kernel
  have hoptions : (load (m := Id) (fun path => pure (layered path)) ⟨"/p/t.json"⟩).run.toOption.map
      (fun config => ((config.outDir, config.baseUrl, config.rootDir), config.moduleResolution,
        config.composite, (Alias.allCandidates config.aliases "@/x").map AliasCandidate.path))
      = some ((some ⟨"/p/d"⟩, some ⟨"/p/u"⟩, some ⟨"/q/r"⟩), .nodeNext, false,
        [⟨"/p/u/x"⟩, ⟨"/p/u/l/x.ts"⟩]) := by
    decide +kernel
  obtain ⟨file, hfile, hend⟩ := (Option.any_eq_true _ _).1 hends
  have hchains : ∀ other, at? layered ⟨"/p/t.json"⟩ = some other →
      ChainsWithin layered 16 other := by
    intro other hother
    obtain rfl := Option.some.inj (hfile.symm.trans hother)
    exact (chainsWithin_of_chainsEnd hend).mono (by decide)
  obtain ⟨-, -, hload⟩ := load_inherits (m := Id) layered ⟨"/p/t.json"⟩ hchains
  obtain ⟨files, hvisits, config, hconfig, -, hinherits⟩ := hload file hfile
  rw [hconfig] at hoptions
  refine ⟨hchains, file, files, config, hfile, hvisits, hconfig, hinherits, ?_⟩
  simpa [Except.toOption, and_assoc] using hoptions

end ProjectConfig

end ModuleTrace
