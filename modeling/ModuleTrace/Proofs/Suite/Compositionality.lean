import ModuleTrace.FileSystem.Tree
import ModuleTrace.Proofs.Memory.Runs
import ModuleTrace.Proofs.Suite.Contributions
import ModuleTrace.Proofs.Traversal.Agreement

/-!
# Collections of a suite are put together from their rules

Two lists of rules collect what the one and the other collect, if the session cannot tell its
loader from one that never changes its answers. A loader of files on a disk may be told from it:
the place of a source file may be asked for with a slash behind its name, and the answer is then
remembered for the name without the slash.
-/

namespace ModuleTrace

namespace Suite

/-! ## A loader that is taken for another -/

section

variable {s : Session Id} {other : Loader Id} (h : s.CannotTell other) (search : Search Id)
  (root : Path)

include h

theorem fresh_withLoader (test : Path) : fresh s test = fresh (s.withLoader other) test :=
  congrArg (fun result => result.run.1) (h.collect_eq [] test)

theorem filesOfRule_withLoader (rule : MatchRule) :
    filesOfRule s search root rule = filesOfRule (s.withLoader other) search root rule := by
  have hfresh : fresh s = fresh (s.withLoader other) := funext (fresh_withLoader h)
  unfold filesOfRule filesOfTest
  rw [hfresh]

theorem faultsOfRule_withLoader (rule : MatchRule) :
    faultsOfRule s search root rule = faultsOfRule (s.withLoader other) search root rule := by
  have hfresh : fresh s = fresh (s.withLoader other) := funext (fresh_withLoader h)
  unfold faultsOfRule faultsOfTest
  rw [hfresh]

theorem collectedAfter_withLoader (past : List (Call Id)) (rules : List MatchRule) :
    collectedAfter s search root past rules
      = collectedAfter (s.withLoader other) search root past rules := by
  unfold collectedAfter
  rw [h.collectSuite_eq, h.memoryAfter_eq]

/-- A collection gathers what its rules contribute, whatever was asked before. -/
theorem collectedAfter_gathers (fixed : other.Fixed) (past : List (Call Id))
    (rules : List MatchRule) :
    Gathers (collectedAfter s search root past rules) (rules.flatMap (filesOfRule s search root))
      (rules.flatMap (faultsOfRule s search root)) := by
  have hfixed : (s.withLoader other).loader.Fixed := fixed
  rw [collectedAfter_withLoader h, funext (filesOfRule_withLoader h search root),
    funext (faultsOfRule_withLoader h search root)]
  exact collectedAfter_fixed hfixed search root past rules

end

/-! ## Runs of a collection -/

theorem run_collect_append {m : Type → Type} [Monad m] [LawfulMonad m] {s : Session m}
    {search : Search m} {root : Path} {rules others : List MatchRule} {memory middle after : Memory}
    {a b : SuiteCollection} (ha : (collect s search root rules).run memory = pure (a, middle))
    (hb : (collect s search root others).run middle = pure (b, after)) :
    (collect s search root (rules ++ others)).run memory = pure (a.union b, after) := by
  rw [collect_append, StateT.run_bind, ha, pure_bind, StateT.run_bind, hb, pure_bind]
  rfl

theorem collectedAfter_nil {s : Session Id} {search : Search Id} {root : Path}
    {rules : List MatchRule} {collection : SuiteCollection} {after : Memory}
    (h : (collect s search root rules).run {} = pure (collection, after)) :
    collectedAfter s search root [] rules = collection :=
  congrArg (fun result => result.run.1) h

/-- A rule with one test and no snapshots collects what the test has come to. -/
theorem run_collect_one {s : Session Id} {search : Search Id} {root test : Path} {rule : MatchRule}
    {memory after : Memory} {result : Except ResolveError Reach}
    (htests : (findTests search rule (rule.directoryIn root)).run = .ok [test])
    (hsnapshots :
      (snapshotsIn search (rule.snapshotDirectory (rule.directoryIn root) test)).run = [])
    (hrun : (s.collect test).run memory = pure (result, after)) :
    (collect s search root [rule]).run memory
      = pure (⟨distinct (addResult {} test result).files, (addResult {} test result).errors⟩,
          after) := by
  have htests' : findTests search rule (rule.directoryIn root) = pure (.ok [test]) := htests
  have hsnapshots' : snapshotsIn search (rule.snapshotDirectory (rule.directoryIn root) test)
      = pure [] := hsnapshots
  simp [collect, collectRule, collectTest_eq, htests', hsnapshots', hrun, Gathering.addFiles]

/-! ## Compositionality -/

/-- Collecting puts together what each rule contributes. The rules of two lists, one behind the
other, collect the union of what both collect, each with what was asked before; and if the session
cannot tell its loader from a fixed one, then no past shows in this, and the first list shows in
nothing that the second collects. -/
theorem collect_compositional (s : Session Id) (search : Search Id) (root : Path) :
    (∀ rules others, collect s search root (rules ++ others) = do
      let a ← collect s search root rules
      let b ← collect s search root others
      return a.union b) ∧
    (∀ rule directory tests, (findTests search rule directory).run = .ok tests →
      ∃ files, (search.walk directory).run = .ok files ∧
        Finds search.reader rule directory files tests) ∧
    ∀ other : Loader Id, other.Fixed → s.CannotTell other →
      (∀ past rules, Gathers (collectedAfter s search root past rules)
        (rules.flatMap (filesOfRule s search root)) (rules.flatMap (faultsOfRule s search root))) ∧
      ∀ past past₁ past₂ rules others,
        (collectedAfter s search root past (rules ++ others)).Same
          ((collectedAfter s search root past₁ rules).union
            (collectedAfter s search root past₂ others)) := by
  refine ⟨collect_append s search root, fun rule directory tests htests => ?_,
    fun other fixed h => ?_⟩
  · have hwalk : Always (fun found => ∀ files, found = .ok files →
        (search.walk directory).run = .ok files) (search.walk directory) :=
      always_id.2 fun files hfiles => hfiles
    exact always_id.1 (findTests_finds search rule directory hwalk) tests htests
  have hgathers := collectedAfter_gathers h search root fixed
  refine ⟨hgathers, fun past past₁ past₂ rules others => ?_⟩
  have hunion := (hgathers past₁ rules).union (hgathers past₂ others)
  rw [← List.flatMap_append, ← List.flatMap_append] at hunion
  exact (hgathers past (rules ++ others)).same hunion

def scriptRule (name : String) : MatchRule :=
  { included := [name] }

def scripts : FileSystem Id :=
  FileTree.fileSystem (.directory [("a.js", .file (.ok "a") false),
    ("b.js", .file (.ok "b") false), ("c.js", .file (.ok "c") false)]) ⟨"/"⟩

theorem collect_compositional_sample :
    Session.sample.loader.Fixed ∧ Session.sample.CannotTell Session.sample.loader ∧
    (findTests (.of scripts) (scriptRule "a.js") ⟨"/"⟩).run = .ok [⟨"/a.js"⟩] ∧
    (∃ files, (unignoredFiles scripts ⟨"/"⟩).run = .ok files ∧
      Finds Glob.reader (scriptRule "a.js") ⟨"/"⟩ files [⟨"/a.js"⟩]) ∧
    (collectedAfter Session.sample scripts ⟨"/"⟩ [.resolve ⟨"/c.js"⟩]
      ([scriptRule "a.js"] ++ [scriptRule "["])).Same
        ((collectedAfter Session.sample scripts ⟨"/"⟩ [] [scriptRule "a.js"]).union
          (collectedAfter Session.sample scripts ⟨"/"⟩ [] [scriptRule "["])) := by
  have htests : (findTests (.of scripts) (scriptRule "a.js") ⟨"/"⟩).run = .ok [⟨"/a.js"⟩] := by
    decide +kernel
  have htell := Session.cannotTell_self Session.sample
  obtain ⟨-, hfinds, hrules⟩ := collect_compositional Session.sample scripts ⟨"/"⟩
  exact ⟨Session.sample_fixed, htell, htests, hfinds _ _ _ htests,
    (hrules _ Session.sample_fixed htell).2 _ _ _ _ _⟩

/-! ## A file under two spellings -/

def compiledText : String :=
  "\x7b\"compilerOptions\":\x7b\"outDir\":\"dist.json\",\"rootDir\":\"src.json\"\x7d\x7d"

/-- A project whose compiler makes one file of another. The script `a.js` includes the file that
is made, which is not there, and `b.js` its source. -/
def compiled : FileSystem Id :=
  FileTree.fileSystem (.directory [("p", .directory [
    ("tsconfig.json", .file (.ok compiledText) false),
    ("src.json", .file (.ok "\x7b\x7d") false),
    ("a.js", .file (.ok "a") false),
    ("b.js", .file (.ok "b") false)])]) ⟨"/"⟩

def compiling : Session Id where
  loader := compiled.loader
  extractor := .ofTexts [("a", .specifiers ["./dist.json"]), ("b", .specifiers ["./src.json"])]
  options := { root := some ⟨"/p"⟩ }
  workspace := none

def scriptA : SourceFile := ⟨⟨"/p/a.js"⟩, "a"⟩

def scriptB : SourceFile := ⟨⟨"/p/b.js"⟩, "b"⟩

def sourceFile : SourceFile := ⟨⟨"/p/src.json"⟩, "\x7b\x7d"⟩

/-- The file that is made is looked for in the place of its source, under another spelling. -/
theorem compiled_probes : ∃ config,
    ProjectConfig.parse compiledText ⟨"/p/tsconfig.json"⟩ = .ok config ∧
    config.path = ⟨"/p/tsconfig.json"⟩ ∧
    Classifier.probes ⟨"/p/dist.json"⟩ (some config)
      = [.file ⟨"/p/src.json/"⟩, .file ⟨"/p/dist.json"⟩] ∧
    Classifier.probes sourceFile.path (some config) = [.file sourceFile.path] := by
  have hparsed : (ProjectConfig.parse compiledText ⟨"/p/tsconfig.json"⟩).toOption.map
      (fun config => (config.path, Classifier.probes ⟨"/p/dist.json"⟩ (some config),
        Classifier.probes sourceFile.path (some config)))
      = some (⟨"/p/tsconfig.json"⟩, [.file ⟨"/p/src.json/"⟩, .file ⟨"/p/dist.json"⟩],
        [.file sourceFile.path]) := by
    decide +kernel
  obtain ⟨config, hconfig, hprobes⟩ := Option.map_eq_some_iff.1 hparsed
  simp only [Prod.mk.injEq] at hprobes
  refine ⟨config, ?_, hprobes⟩
  cases hparse : ProjectConfig.parse compiledText ⟨"/p/tsconfig.json"⟩ with
  | error error => simp [hparse, Except.toOption] at hconfig
  | ok found =>
      rw [hparse] at hconfig
      exact congrArg _ (Option.some.inj hconfig)

theorem run_configFor_compiled {knowledge : Knowledge} {config : ProjectConfig}
    (hparse : ProjectConfig.parse compiledText ⟨"/p/tsconfig.json"⟩ = .ok config)
    (hpath : config.path = ⟨"/p/tsconfig.json"⟩)
    (hnew : knowledge.configs[(⟨"/p"⟩ : Path).parts]? = none)
    (hprobe : knowledge.sources.existence[(⟨"/p/tsconfig.json"⟩ : Path).parts]? = none) :
    (Knowledge.configFor compiled.loader (some ⟨"/p"⟩) ⟨"/p"⟩).run knowledge
      = pure (some config, knowledge.withConfig ⟨"/p"⟩ config) := by
  have hfile : (compiled.loader.isFile ⟨"/p/tsconfig.json"⟩).run = true := by decide +kernel
  have hread : (compiled.loader.read ⟨"/p/tsconfig.json"⟩).run = .ok compiledText := by
    decide +kernel
  rw [← hpath] at hparse hprobe hfile hread
  exact Knowledge.run_configFor_new hnew (by rw [hpath]; decide) hprobe hfile hread
    (by decide +kernel) hparse

/-- What the first script leaves behind: the source file is taken for none. -/
structure Misled (memory : Memory) : Prop where
  config : ∃ config, ProjectConfig.parse compiledText ⟨"/p/tsconfig.json"⟩ = .ok config ∧
    memory.knowledge.configs[(⟨"/p"⟩ : Path).parts]? = some (some config)
  source : memory.knowledge.sources.existence[sourceFile.path.parts]? = some false
  unread : memory.knowledge.sources.files[scriptB.path.parts]? = none
  unknown : memory.analyses[scriptB.path.parts]? = none

theorem run_collect_a : ∃ memory, Misled memory ∧ (compiling.collect scriptA.path).run {}
    = pure (.ok { entrypoint := scriptA, missing := [⟨"/p/dist.json"⟩] }, memory) := by
  obtain ⟨config, hparse, hpath, hprobes, -⟩ := compiled_probes
  have hread : (compiled.loader.read scriptA.path).run = .ok scriptA.contents := by decide +kernel
  have hsource : (compiled.loader.isFile ⟨"/p/src.json/"⟩).run = false := by decide +kernel
  have htarget : (compiled.loader.isFile ⟨"/p/dist.json"⟩).run = false := by decide +kernel
  have hconfig : (Knowledge.configFor compiled.loader (some ⟨"/p"⟩) ⟨"/p"⟩).run
      (Session.knowledgeWith {} scriptA) = _ :=
    run_configFor_compiled hparse hpath (by simp [Session.knowledgeWith])
      (by simp +decide [Session.knowledgeWith])
  generalize hknown : (Session.knowledgeWith {} scriptA).withConfig ⟨"/p"⟩ config = known at hconfig
  have hfirst : (Knowledge.isFile compiled.loader ⟨"/p/src.json/"⟩).run known = _ :=
    Knowledge.run_isFile_new (by simp +decide [← hknown, hpath, Session.knowledgeWith]) hsource
  have hsecond : (Knowledge.isFile compiled.loader ⟨"/p/dist.json"⟩).run
      (known.withAnswer ⟨"/p/src.json/"⟩ false) = _ :=
    Knowledge.run_isFile_new (by simp +decide [← hknown, hpath, Session.knowledgeWith]) htarget
  have hclassify : (Classifier.classify compiled.loader (compiling.surroundings scriptA) scriptA
      "./dist.json").run (Session.knowledgeWith {} scriptA)
        = pure (.missing ⟨"./dist.json", ⟨"/p/dist.json"⟩⟩,
          (known.withAnswer ⟨"/p/src.json/"⟩ false).withAnswer ⟨"/p/dist.json"⟩ false) := by
    refine Classifier.run_classify_relative scriptA "./dist.json" ⟨"/p/dist.json"⟩ none
      (by decide) (by decide) (by decide) hconfig ?_
    rw [hprobes, Classifier.run_firstSome_false hfirst, Classifier.run_firstSome_false hsecond]
    rfl
  refine ⟨_, ⟨⟨config, hparse, ?_⟩, ?_, ?_, ?_⟩, Session.run_collect_missing (by decide) (by simp)
    hread (by simp) rfl hclassify⟩
  · simp +decide [← hknown]
  · simp +decide [← hknown]
  · simp +decide [← hknown, Session.knowledgeWith]
  · simp +decide

/-- The second script does not find the source file that the first one has taken for none. -/
theorem run_collect_b_misled {memory : Memory} (h : Misled memory) : ∃ after,
    (compiling.collect scriptB.path).run memory
      = pure (.ok { entrypoint := scriptB, missing := [sourceFile.path] }, after) := by
  obtain ⟨config, hparse, -, -, hprobes⟩ := compiled_probes
  obtain ⟨known, hparse', hconfig⟩ := h.config
  obtain rfl : config = known := Except.ok.inj (hparse.symm.trans hparse')
  have hread : (compiled.loader.read scriptB.path).run = .ok scriptB.contents := by decide +kernel
  have hanswer : (Session.knowledgeWith memory scriptB).sources.existence[sourceFile.path.parts]?
      = some false := by
    simp +decide [Session.knowledgeWith, h.source]
  have hclassify : (Classifier.classify compiled.loader (compiling.surroundings scriptB) scriptB
      "./src.json").run (Session.knowledgeWith memory scriptB)
        = pure (.missing ⟨"./src.json", sourceFile.path⟩,
          Session.knowledgeWith memory scriptB) := by
    refine Classifier.run_classify_relative scriptB "./src.json" sourceFile.path none
      (by decide) (by decide) (by decide) (Knowledge.run_configFor_known hconfig) ?_
    rw [hprobes, Classifier.run_firstSome_false (Knowledge.run_isFile_known hanswer)]
    rfl
  exact ⟨_, Session.run_collect_missing (by decide) h.unread hread h.unknown rfl hclassify⟩

/-- In a session of its own it finds it. -/
theorem run_collect_b : ∃ after, (compiling.collect scriptB.path).run {}
    = pure (.ok { entrypoint := scriptB, files := [sourceFile] }, after) := by
  obtain ⟨config, hparse, hpath, -, hprobes⟩ := compiled_probes
  have hread : (compiled.loader.read scriptB.path).run = .ok scriptB.contents := by decide +kernel
  have hsource : (compiled.loader.isFile sourceFile.path).run = true := by decide +kernel
  have hleaf : (compiled.loader.read sourceFile.path).run = .ok sourceFile.contents := by
    decide +kernel
  have hconfig : (Knowledge.configFor compiled.loader (some ⟨"/p"⟩) ⟨"/p"⟩).run
      (Session.knowledgeWith {} scriptB) = _ :=
    run_configFor_compiled hparse hpath (by simp [Session.knowledgeWith])
      (by simp +decide [Session.knowledgeWith])
  generalize hknown : (Session.knowledgeWith {} scriptB).withConfig ⟨"/p"⟩ config = known at hconfig
  have hfile : (Knowledge.isFile compiled.loader sourceFile.path).run known = _ :=
    Knowledge.run_isFile_new (by simp +decide [← hknown, hpath, Session.knowledgeWith]) hsource
  have hclassify : (Classifier.classify compiled.loader (compiling.surroundings scriptB) scriptB
      "./src.json").run (Session.knowledgeWith {} scriptB)
        = pure (.localFile ⟨"./src.json", sourceFile.path, .relative⟩,
          known.withAnswer sourceFile.path true) := by
    refine Classifier.run_classify_relative scriptB "./src.json" sourceFile.path
      (some sourceFile.path) (by decide) (by decide) (by decide) hconfig ?_
    rw [hprobes]
    exact Classifier.run_firstSome_true hfile rfl
  exact Session.run_collect_leaf (by decide) (by simp) hread (by simp) rfl rfl rfl (by decide)
    hclassify (by simp +decide [← hknown, Session.knowledgeWith]) hleaf (by simp) rfl

/-- The first rule takes a file from the second, and adds an error to it. -/
theorem collect_compositional_misled :
    sourceFile.path.parts ∈ (collectedAfter compiling compiled ⟨"/p"⟩ []
        [scriptRule "b.js"]).files.map Path.parts ∧
      sourceFile.path.parts ∉ (collectedAfter compiling compiled ⟨"/p"⟩ []
        ([scriptRule "a.js"] ++ [scriptRule "b.js"])).files.map Path.parts ∧
      (collectedAfter compiling compiled ⟨"/p"⟩ [] [scriptRule "a.js"]).errors.length = 1 ∧
      (collectedAfter compiling compiled ⟨"/p"⟩ [] [scriptRule "b.js"]).errors = [] ∧
      (collectedAfter compiling compiled ⟨"/p"⟩ []
        ([scriptRule "a.js"] ++ [scriptRule "b.js"])).errors.length = 2 := by
  obtain ⟨memory, hmisled, ha⟩ := run_collect_a
  obtain ⟨later, hlater⟩ := run_collect_b_misled hmisled
  obtain ⟨alone, halone⟩ := run_collect_b
  have hfirst : (collect compiling compiled ⟨"/p"⟩ [scriptRule "a.js"]).run {} = _ :=
    run_collect_one (by decide +kernel) (by decide +kernel) ha
  have hsecond : (collect compiling compiled ⟨"/p"⟩ [scriptRule "b.js"]).run memory = _ :=
    run_collect_one (by decide +kernel) (by decide +kernel) hlater
  have hother : (collect compiling compiled ⟨"/p"⟩ [scriptRule "b.js"]).run {} = _ :=
    run_collect_one (by decide +kernel) (by decide +kernel) halone
  have hwhole := run_collect_append hfirst hsecond
  rw [collectedAfter_nil hfirst, collectedAfter_nil hother, collectedAfter_nil hwhole]
  simp only [SuiteCollection.union, distinct_append, mem_distinct_iff]
  decide +kernel

end Suite

end ModuleTrace
