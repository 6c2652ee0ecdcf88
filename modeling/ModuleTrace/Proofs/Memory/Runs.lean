import ModuleTrace.Proofs.Path.Parts
import ModuleTrace.Proofs.Resolution.Keeping

/-!
# One run, step by step

What an action gives from a given memory, and the memory that it leaves: a question is put to the
loader if its answer is not remembered, and then it is.
-/

namespace ModuleTrace

variable {m : Type → Type} [Monad m] [LawfulMonad m] {loader : Loader m}

namespace SourceCache

def withLoaded (cache : SourceCache) (file : SourceFile) : SourceCache :=
  { files := cache.files.insert file.path.parts file
    existence := cache.existence.insert file.path.parts true
    readCount := cache.readCount + 1
    journal := .read file.path :: cache.journal }

def withAnswer (cache : SourceCache) (path : Path) (answer : Bool) : SourceCache :=
  { cache with
    existence := cache.existence.insert path.parts answer
    journal := .probe path :: cache.journal }

variable {cache : SourceCache}

@[simp] theorem files_withLoaded (file : SourceFile) (key : List Path.Part) :
    (cache.withLoaded file).files[key]?
      = if file.path.parts == key then some file else cache.files[key]? :=
  Std.HashMap.getElem?_insert

@[simp] theorem existence_withLoaded (file : SourceFile) (key : List Path.Part) :
    (cache.withLoaded file).existence[key]?
      = if file.path.parts == key then some true else cache.existence[key]? :=
  Std.HashMap.getElem?_insert

@[simp] theorem files_withAnswer (path : Path) (answer : Bool) :
    (cache.withAnswer path answer).files = cache.files := rfl

@[simp] theorem existence_withAnswer (path : Path) (answer : Bool) (key : List Path.Part) :
    (cache.withAnswer path answer).existence[key]?
      = if path.parts == key then some answer else cache.existence[key]? :=
  Std.HashMap.getElem?_insert

theorem run_load_new {file : SourceFile} (hnew : cache.files[file.path.parts]? = none)
    (hread : loader.read file.path = pure (.ok file.contents)) :
    (load loader file.path).run cache = pure (.ok file, cache.withLoaded file) := by
  simp [load, readFresh, hnew, hread, withLoaded]

theorem run_isFile_new {path : Path} {answer : Bool} (hnew : cache.existence[path.parts]? = none)
    (hanswer : loader.isFile path = pure answer) :
    (isFile loader path).run cache = pure (answer, cache.withAnswer path answer) := by
  simp [isFile, hnew, hanswer, withAnswer]

theorem run_isFile_known {path : Path} {answer : Bool}
    (hknown : cache.existence[path.parts]? = some answer) :
    (isFile loader path).run cache = pure (answer, cache) := by
  simp [isFile, hknown]

end SourceCache

/-- A configuration that extends nothing is what its own text says. -/
theorem ProjectConfig.parseWith_eq (read : Path → m (Option String)) {contents : String}
    (path : Path) (h : (Json.parse? (Json.strict contents)).map extensions = some []) :
    parseWith read contents path = pure (parse contents path) := by
  obtain ⟨json, hjson, hnone⟩ := Option.map_eq_some_iff.1 h
  simp [parse, parseWith, loadOptions, extensionDepth, hjson, hnone, Id.run]
  rfl

namespace Knowledge

theorem run_withSources {α : Type} {x : StateT SourceCache m α} {knowledge : Knowledge} {a : α}
    {sources : SourceCache} (h : x.run knowledge.sources = pure (a, sources)) :
    (withSources x).run knowledge = pure (a, { knowledge with sources }) := by
  simp [withSources, h]

variable {root : Option Path} {directory : Path} {knowledge : Knowledge}

def withAnswer (knowledge : Knowledge) (path : Path) (answer : Bool) : Knowledge :=
  { knowledge with sources := knowledge.sources.withAnswer path answer }

@[simp] theorem sources_withAnswer (path : Path) (answer : Bool) :
    (knowledge.withAnswer path answer).sources = knowledge.sources.withAnswer path answer := rfl

@[simp] theorem configs_withAnswer (path : Path) (answer : Bool) :
    (knowledge.withAnswer path answer).configs = knowledge.configs := rfl

theorem run_isFile_new {path : Path} {answer : Bool}
    (hnew : knowledge.sources.existence[path.parts]? = none)
    (hanswer : loader.isFile path = pure answer) :
    (isFile loader path).run knowledge = pure (answer, knowledge.withAnswer path answer) :=
  run_withSources (SourceCache.run_isFile_new hnew hanswer)

theorem run_isFile_known {path : Path} {answer : Bool}
    (hknown : knowledge.sources.existence[path.parts]? = some answer) :
    (isFile loader path).run knowledge = pure (answer, knowledge) :=
  run_withSources (SourceCache.run_isFile_known hknown)

theorem run_configFor_known {answer : Option ProjectConfig}
    (h : knowledge.configs[directory.parts]? = some answer) :
    (configFor loader root directory).run knowledge = pure (answer, knowledge) := by
  simp [configFor, nearest, Path.ancestors_eq directory, search, configKind, h]

def withConfig (knowledge : Knowledge) (directory : Path) (config : ProjectConfig) : Knowledge :=
  { knowledge with
    sources :=
      { knowledge.sources.withAnswer config.path true with
        journal := .read config.path :: .probe config.path :: knowledge.sources.journal }
    configs := knowledge.configs.insert directory.parts (some config) }

@[simp] theorem files_withConfig (config : ProjectConfig) :
    (knowledge.withConfig directory config).sources.files = knowledge.sources.files := rfl

@[simp] theorem existence_withConfig (config : ProjectConfig) (key : List Path.Part) :
    (knowledge.withConfig directory config).sources.existence[key]?
      = if config.path.parts == key then some true else knowledge.sources.existence[key]? :=
  Std.HashMap.getElem?_insert

@[simp] theorem configs_withConfig (config : ProjectConfig) (key : List Path.Part) :
    (knowledge.withConfig directory config).configs[key]?
      = if directory.parts == key then some (some config) else knowledge.configs[key]? :=
  Std.HashMap.getElem?_insert

theorem run_configFor_new {contents : String} {config : ProjectConfig}
    (hnew : knowledge.configs[directory.parts]? = none)
    (hpath : directory / "tsconfig.json" = config.path)
    (hprobe : knowledge.sources.existence[config.path.parts]? = none)
    (hfile : loader.isFile config.path = pure true)
    (hread : loader.read config.path = pure (.ok contents))
    (halone : (Json.parse? (Json.strict contents)).map ProjectConfig.extensions = some [])
    (hparse : ProjectConfig.parse contents config.path = .ok config) :
    (configFor loader root directory).run knowledge
      = pure (some config, knowledge.withConfig directory config) := by
  have hisFile : (isFile loader config.path).run knowledge
      = pure (true, knowledge.withAnswer config.path true) := run_isFile_new hprobe hfile
  simp [configFor, nearest, Path.ancestors_eq directory, search, configKind, hnew, configIn,
    firstFile, ProjectConfig.fileNames, hpath, hisFile, ProjectConfig.load, read?, readFresh,
    withSources, SourceCache.readFresh, withAnswer, SourceCache.withAnswer, hread, Except.toOption,
    ProjectConfig.parseWith_eq _ _ halone, hparse, withConfig]

end Knowledge

namespace Classifier

variable {s : Surroundings} {depth : Nat} {config : Option ProjectConfig} {path : Path}
  {rest : List Candidate} {knowledge after : Knowledge}

theorem run_firstSome_false
    (h : (Knowledge.isFile loader path).run knowledge = pure (false, after)) :
    (firstSome (tryCandidate loader s depth config) (.file path :: rest)).run knowledge
      = (firstSome (tryCandidate loader s depth config) rest).run after := by
  simp [firstSome, tryCandidate, h]

theorem run_firstSome_true
    (h : (Knowledge.isFile loader path).run knowledge = pure (true, after))
    (hpermits : s.permits path = true) :
    (firstSome (tryCandidate loader s depth config) (.file path :: rest)).run knowledge
      = pure (some path, after) := by
  simp [firstSome, tryCandidate, h, hpermits]

/-- What a specifier written as a path means, from what was found for it. -/
theorem run_classify_relative (file : SourceFile) (specifier : String) (target : Path)
    (found : Option Path) {known : Knowledge} (hscheme : Specifier.hasScheme specifier = false)
    (hlocal : Specifier.isLocal specifier = true)
    (htarget : (file.directory / specifier).normalize = target)
    (hconfig : (Knowledge.configFor loader s.root file.directory).run knowledge
      = pure (config, known))
    (hlookup : (firstSome (tryCandidate loader s manifestDepth config)
      (probes target config)).run known = pure (found, after)) :
    (classify loader s file specifier).run knowledge
      = pure (found.elim (.missing ⟨specifier, target⟩) fun path =>
          .localFile ⟨specifier, path, .relative⟩, after) := by
  rw [← lookup_eq] at hlookup
  cases found <;>
    simp [classify, hscheme, hlocal, hconfig, htarget, byRule, hlookup, Classifier.found]

end Classifier

namespace Session

variable {s : Session m} {memory : Memory} {file : SourceFile}

theorem run_withKnowledge {α : Type} {x : StateT Knowledge m α} {a : α} {knowledge : Knowledge}
    (h : x.run memory.knowledge = pure (a, knowledge)) :
    (withKnowledge x).run memory = pure (a, { memory with knowledge }) := by
  simp [withKnowledge, h]

def knowledgeWith (memory : Memory) (file : SourceFile) : Knowledge :=
  { memory.knowledge with sources := memory.knowledge.sources.withLoaded file }

theorem run_load_new (hnew : memory.knowledge.sources.files[file.path.parts]? = none)
    (hread : s.loader.read file.path = pure (.ok file.contents)) :
    (s.load file.path).run memory
      = pure (.ok file, { memory with knowledge := knowledgeWith memory file }) :=
  run_withKnowledge (Knowledge.run_withSources (SourceCache.run_load_new hnew hread))

theorem run_analyze_new {specifiers : List String} {found : List Classification}
    {knowledge : Knowledge} (hnew : memory.analyses[file.path.parts]? = none)
    (hextract : s.extractor file = .ok (.specifiers specifiers))
    (hclassify : (s.classifyAll file specifiers).run memory
      = pure (found, { memory with knowledge })) :
    (s.analyze file).run memory = pure (.ok ⟨specifiers, .ofClassifications found, none⟩,
      ⟨knowledge, memory.analyses.insert file.path.parts
        ⟨specifiers, .ofClassifications found, none⟩⟩) := by
  simp [analyze, hnew, hextract, hclassify]

theorem run_classifyAll_one {specifier : String} {found : Classification} {knowledge : Knowledge}
    (h : (Classifier.classify s.loader (s.surroundings file) file specifier).run memory.knowledge
      = pure (found, knowledge)) :
    (s.classifyAll file [specifier]).run memory = pure ([found], { memory with knowledge }) := by
  simp [classifyAll, run_withKnowledge h]

theorem run_visit {analysis : Analysis} {after : Memory} (frontier : Frontier)
    (hanalyze : (s.analyze file).run memory = pure (.ok analysis, after))
    (hparsed : analysis.failure = none) :
    (s.visit file frontier).run memory
      = (s.meetAll (analysis.dependencies.locals.map LocalDependency.path)
          { frontier with reach := s.noteProblems file analysis frontier.reach }).run after := by
  simp [visit, hanalyze, hparsed]

/-- A file that includes nothing adds nothing. -/
theorem run_visit_leaf (frontier : Frontier) (hnew : memory.analyses[file.path.parts]? = none)
    (hextract : s.extractor file = .ok (.specifiers [])) :
    (s.visit file frontier).run memory
      = pure (.ok frontier, ⟨memory.knowledge, memory.analyses.insert file.path.parts {}⟩) := by
  have hnothing : (s.classifyAll file []).run memory = pure ([], memory) := by
    simp [classifyAll]
  have hanalyze : (s.analyze file).run memory
      = pure (.ok {}, ⟨memory.knowledge, memory.analyses.insert file.path.parts {}⟩) :=
    run_analyze_new hnew hextract hnothing
  rw [run_visit _ hanalyze rfl]
  simp [noteProblems, Reach.addMissing, Reach.addUnsupported, Policy.unsupported, meetAll]

theorem run_meet_new {frontier : Frontier} {path : Path} {after : Memory}
    (hlimit : s.options.fileLimit = none) (hmet : path.parts ∉ frontier.visited)
    (hload : (s.load path).run memory = pure (.ok file, after)) :
    (s.meet frontier path).run memory = pure (.ok
      { reach := { frontier.reach with files := frontier.reach.files ++ [file] }
        visited := path.parts :: frontier.visited
        queue := frontier.queue ++ [file] }, after) := by
  simp [meet, hlimit, hmet, hload]

theorem run_traverse_visit (fuel : Nat) {frontier next : Frontier} {queue : List SourceFile}
    {after : Memory} (hqueue : frontier.queue = file :: queue)
    (hvisit : (s.visit file { frontier with queue }).run memory = pure (.ok next, after)) :
    (s.traverse (fuel + 1) frontier).run memory = (s.traverse fuel next).run after := by
  simp [traverse, hqueue, hvisit]

omit [LawfulMonad m] in
theorem run_traverse_done (fuel : Nat) {frontier : Frontier} (h : frontier.queue = []) :
    (s.traverse fuel frontier).run memory = pure (.ok frontier, memory) := by
  cases fuel <;> simp [traverse, h]

theorem run_collect_new {entrypoint : Path} {frontier : Frontier} {after : Memory}
    (hpath : entrypoint.normalize = file.path)
    (hnew : memory.knowledge.sources.files[file.path.parts]? = none)
    (hread : s.loader.read file.path = pure (.ok file.contents))
    (htraverse : (s.traverse (s.loader.extent + 1)
      ⟨{ entrypoint := file }, [file.path.parts], [file]⟩).run
        { memory with knowledge := knowledgeWith memory file } = pure (.ok frontier, after)) :
    (s.collect entrypoint).run memory = pure (.ok frontier.reach, after) := by
  simp [collect, hpath, run_load_new hnew hread, htraverse]

/-! ### Entrypoints that include one file -/

variable {specifier : String} {knowledge : Knowledge}
  (hnormal : file.path.normalize = file.path)
  (hnew : memory.knowledge.sources.files[file.path.parts]? = none)
  (hread : s.loader.read file.path = pure (.ok file.contents))
  (hunknown : memory.analyses[file.path.parts]? = none)
  (hextract : s.extractor file = .ok (.specifiers [specifier]))

include hnormal hnew hread hunknown hextract

/-- An entrypoint whose only inclusion is missing. -/
theorem run_collect_missing {target : Path}
    (hclassify : (Classifier.classify s.loader (s.surroundings file) file specifier).run
      (knowledgeWith memory file) = pure (.missing ⟨specifier, target⟩, knowledge)) :
    (s.collect file.path).run memory = pure (.ok { entrypoint := file, missing := [target] },
      ⟨knowledge, memory.analyses.insert file.path.parts
        ⟨[specifier], .ofClassifications [.missing ⟨specifier, target⟩], none⟩⟩) := by
  have hanalyze : (s.analyze file).run ⟨knowledgeWith memory file, memory.analyses⟩ = _ :=
    run_analyze_new hunknown hextract (run_classifyAll_one hclassify)
  generalize memory.analyses.insert file.path.parts _ = analyses at hanalyze ⊢
  have hvisit : (s.visit file ⟨{ entrypoint := file }, [file.path.parts], []⟩).run
      ⟨knowledgeWith memory file, memory.analyses⟩
        = pure (.ok ⟨{ entrypoint := file, missing := [target] }, [file.path.parts], []⟩,
          ⟨knowledge, analyses⟩) := by
    rw [run_visit _ hanalyze rfl]
    simp [noteProblems, Dependencies.ofClassifications, Reach.addMissing, Reach.addUnsupported,
      Policy.unsupported, meetAll]
  exact run_collect_new hnormal hnew hread
    ((run_traverse_visit _ rfl hvisit).trans (run_traverse_done _ rfl))

/-- An entrypoint whose only inclusion is a file that includes nothing. -/
theorem run_collect_leaf {leaf : SourceFile} {rule : Rule} {count : Nat}
    (hlimit : s.options.fileLimit = none) (hextent : s.loader.extent = count + 1)
    (hother : leaf.path.parts ≠ file.path.parts)
    (hclassify : (Classifier.classify s.loader (s.surroundings file) file specifier).run
      (knowledgeWith memory file) = pure (.localFile ⟨specifier, leaf.path, rule⟩, knowledge))
    (hnewLeaf : knowledge.sources.files[leaf.path.parts]? = none)
    (hreadLeaf : s.loader.read leaf.path = pure (.ok leaf.contents))
    (hunknownLeaf : memory.analyses[leaf.path.parts]? = none)
    (hextractLeaf : s.extractor leaf = .ok (.specifiers [])) :
    ∃ after, (s.collect file.path).run memory
      = pure (.ok { entrypoint := file, files := [leaf] }, after) := by
  have hanalyze : (s.analyze file).run ⟨knowledgeWith memory file, memory.analyses⟩ = _ :=
    run_analyze_new hunknown hextract (run_classifyAll_one hclassify)
  have hleaf : (memory.analyses.insert file.path.parts ⟨[specifier],
      .ofClassifications [.localFile ⟨specifier, leaf.path, rule⟩], none⟩)[leaf.path.parts]?
        = none := by
    simp [Std.HashMap.getElem?_insert, hother.symm, hunknownLeaf]
  generalize memory.analyses.insert file.path.parts _ = analyses at hanalyze hleaf
  have hload : (s.load leaf.path).run ⟨knowledge, analyses⟩ = _ :=
    run_load_new hnewLeaf hreadLeaf
  generalize knowledgeWith ⟨knowledge, analyses⟩ leaf = loaded at hload
  have hvisit : (s.visit file ⟨{ entrypoint := file }, [file.path.parts], []⟩).run
      ⟨knowledgeWith memory file, memory.analyses⟩
        = pure (.ok ⟨{ entrypoint := file, files := [leaf] }, [leaf.path.parts, file.path.parts],
          [leaf]⟩, ⟨loaded, analyses⟩) := by
    have hmeet : (s.meet ⟨{ entrypoint := file }, [file.path.parts], []⟩ leaf.path).run
        ⟨knowledge, analyses⟩ = _ := run_meet_new hlimit (by simpa using hother) hload
    rw [run_visit _ hanalyze rfl]
    simp [noteProblems, Dependencies.ofClassifications, Reach.addUnsupported, Policy.unsupported,
      meetAll, hmeet]
  have hrest : (s.traverse s.loader.extent ⟨{ entrypoint := file, files := [leaf] },
      [leaf.path.parts, file.path.parts], [leaf]⟩).run ⟨loaded, analyses⟩
        = pure (.ok ⟨{ entrypoint := file, files := [leaf] },
          [leaf.path.parts, file.path.parts], []⟩,
            ⟨loaded, analyses.insert leaf.path.parts {}⟩) := by
    rw [hextent]
    exact (run_traverse_visit _ rfl (run_visit_leaf _ hleaf hextractLeaf)).trans
      (run_traverse_done _ rfl)
  exact ⟨_, run_collect_new hnormal hnew hread ((run_traverse_visit _ rfl hvisit).trans hrest)⟩

end Session

end ModuleTrace
