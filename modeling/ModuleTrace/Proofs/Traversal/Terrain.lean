import ModuleTrace.Proofs.Resolution.CleanDescriptors
import ModuleTrace.Proofs.Traversal.History
import ModuleTrace.Proofs.Traversal.Steps
import ModuleTrace.Proofs.Traversal.Trail

/-!
# What a traversal passes through

Whatever is true of all that is known, and of every dependency that is found by it, a traversal
keeps true. It takes apart the files that it has met in the order in which it met them, each once,
and goes on until the dependencies of all of them were met.
-/

namespace ModuleTrace

namespace Session

/-! ## What is remembered of a file -/

section

variable {m : Type → Type} [Monad m] (s : Session m)

/-- A fact about what is known that classification keeps, and what it makes true of every local
dependency of a file. -/
structure Ground where
  Knows : Knowledge → Prop
  Finds : SourceFile → LocalDependency → Prop
  finds_congr : ∀ (f g : SourceFile) d, f.path.parts = g.path.parts → Finds f d → Finds g d
  classify : ∀ file specifier,
    Ensures Knows (Classifier.classify s.loader (s.surroundings file) file specifier)
      fun answer => ∀ d, answer = .localFile d → Finds file d

variable {s} (ground : s.Ground)

/-- An analysis as it is made on a ground. -/
structure Ground.Records (file : SourceFile) (analysis : Analysis) : Prop where
  kind : file.kind? ≠ none
  finds : ∀ d ∈ analysis.dependencies.locals, ground.Finds file d
  failed : analysis.failure ≠ none → analysis.dependencies.locals = []

structure Ground.Keeps (memory : Memory) : Prop where
  knowledge : ground.Knows memory.knowledge
  analyses : ∀ (file : SourceFile) (analysis : Analysis),
    memory.analyses[file.path.parts]? = some analysis → ground.Records file analysis

omit [Monad m] in
theorem kind?_congr {f g : SourceFile} (h : f.path.parts = g.path.parts) : f.kind? = g.kind? := by
  simp [SourceFile.kind?, FileKind.ofPath?, Path.extension?_congr h]

omit [Monad m] in
/-- A file of which nothing is to be said as its kind is not known is not taken apart. -/
theorem kind?_ne_none_of_extractor {file : SourceFile} {extraction : Extraction}
    (h : s.extractor file = .ok extraction) : file.kind? ≠ none := by
  intro hnone
  have herror := s.extractor.find_of_kind?_eq_none file hnone
  rw [herror] at h
  cases h

theorem Ground.Records.congr {ground : s.Ground} {f g : SourceFile} {analysis : Analysis}
    (h : ground.Records f analysis) (hparts : f.path.parts = g.path.parts) :
    ground.Records g analysis :=
  ⟨kind?_congr hparts ▸ h.kind, fun d hd => ground.finds_congr f g d hparts (h.finds d hd),
    h.failed⟩

theorem Ground.Keeps.insert {ground : s.Ground} {memory : Memory} (h : ground.Keeps memory)
    {file : SourceFile} {analysis : Analysis} (hanalysis : ground.Records file analysis) :
    ground.Keeps
      { memory with analyses := memory.analyses.insert file.path.parts analysis } := by
  refine ⟨h.knowledge, fun other found hfound => ?_⟩
  rcases insert_entry_cases hfound with ⟨hkey, rfl⟩ | hold
  · exact hanalysis.congr hkey
  · exact h.analyses other found hold

theorem Ground.records_of_classifications {ground : s.Ground} {file : SourceFile}
    (hkind : file.kind? ≠ none) (specifiers : List String) {found : List Classification}
    (h : ∀ answer ∈ found, ∀ d, answer = .localFile d → ground.Finds file d) :
    ground.Records file ⟨specifiers, .ofClassifications found, none⟩ := by
  refine ⟨hkind, fun d hd => ?_, fun hfailed => absurd rfl hfailed⟩
  obtain ⟨answer, hanswer, hd⟩ := List.mem_filterMap.1 hd
  cases answer with
  | localFile dependency =>
      cases hd
      exact h _ hanswer d rfl
  | missing dependency => cases hd
  | external specifier => cases hd

/-! ## Where a traversal goes -/

/-- Places that a traversal does not leave: what is found for a file where it may start, or in
the region, lies in the region. Loads of these places are safe. -/
structure Ground.Region where
  Start : Path → Prop
  Holds : Path → Prop
  Fails : Path → Prop
  start_congr : ∀ p q : Path, p.parts = q.parts → Start p → Start q
  holds_congr : ∀ p q : Path, p.parts = q.parts → Holds p → Holds q
  load : ∀ path, Start path ∨ Holds path →
    Ensures ground.Knows (Knowledge.load s.loader path) (GivesOrFails Fails path)
  step : ∀ (file : SourceFile) d, file.kind? ≠ none → Start file.path ∨ Holds file.path →
    ground.Finds file d → Holds d.path

variable {ground} (region : ground.Region)

/-- A traversal on its way: it has taken apart the first files, is at the current ones, and the
others wait. What was met was found to be a file or may fail, and the dependencies of the first
files were met, but for those that are still owed. -/
structure Ground.Region.OnWay (before current : List SourceFile) (owed : List Path)
    (frontier : Frontier) (memory : Memory) : Prop where
  keeps : ground.Keeps memory
  start : region.Start frontier.reach.entrypoint.path
  files : ∀ file ∈ frontier.reach.files, region.Holds file.path
  order : frontier.reach.entrypoint :: frontier.reach.files = before ++ current ++ frontier.queue
  distinct : ((frontier.reach.entrypoint :: frontier.reach.files).map (·.path.parts)).Nodup
  met : ∀ file ∈ frontier.reach.entrypoint :: frontier.reach.files,
    file.path.parts ∈ frontier.visited
  answered : ∀ key ∈ frontier.visited,
    (∃ file ∈ frontier.reach.entrypoint :: frontier.reach.files, file.path.parts = key) ∨
      ∃ path : Path, path.parts = key ∧ region.Fails path
  settled : ∀ file ∈ before, ∃ analysis, memory.analyses[file.path.parts]? = some analysis ∧
    ∀ d ∈ analysis.dependencies.locals, d.path.parts ∈ frontier.visited ∨ d.path ∈ owed

/-- What a step leaves behind: in any case memory that keeps to the ground. -/
def Ground.Region.Leaves (before : List SourceFile) (owed : List Path)
    (result : Except ResolveError Frontier) (memory : Memory) : Prop :=
  ground.Keeps memory ∧ ∀ next, result = .ok next → region.OnWay before [] owed next memory

variable {region} {before current : List SourceFile} {owed : List Path} {frontier : Frontier}
  {memory : Memory}

namespace Ground.Region

theorem leaves_ok {next : Frontier} (h : region.OnWay before [] owed next memory) :
    region.Leaves before owed (.ok next) memory := by
  refine ⟨h.keeps, fun other hother => ?_⟩
  cases hother
  exact h

theorem leaves_error {error : ResolveError} (h : ground.Keeps memory) :
    region.Leaves before owed (.error error) memory :=
  ⟨h, by simp⟩

/-- At the start only the entrypoint was met, and it waits. -/
theorem onWay_start (h : ground.Keeps memory) {file : SourceFile} (hfile : region.Start file.path) :
    region.OnWay [] [] [] ⟨{ entrypoint := file }, [file.path.parts], [file]⟩ memory := by
  refine ⟨h, hfile, by simp, by simp, by simp, by simp, fun key hkey => ?_, by simp⟩
  rw [List.mem_singleton.1 hkey]
  exact .inl ⟨file, by simp, rfl⟩

namespace OnWay

variable (h : region.OnWay before current owed frontier memory)

include h

theorem holds {file : SourceFile}
    (hfile : file ∈ frontier.reach.entrypoint :: frontier.reach.files) :
    region.Start file.path ∨ region.Holds file.path := by
  rcases List.mem_cons.1 hfile with rfl | hfile
  · exact .inl h.start
  · exact .inr (h.files file hfile)

/-- Of what was found only the files matter. -/
theorem of_eq {other : Frontier} (hentry : other.reach.entrypoint = frontier.reach.entrypoint)
    (hfiles : other.reach.files = frontier.reach.files)
    (hvisited : other.visited = frontier.visited) (hqueue : other.queue = frontier.queue) :
    region.OnWay before current owed other memory := by
  obtain ⟨⟨entry, files, missing, unsupported, failures⟩, visited, queue⟩ := other
  simp only at hentry hfiles hvisited hqueue
  subst hentry hfiles hvisited hqueue
  exact ⟨h.keeps, h.start, h.files, h.order, h.distinct, h.met, h.answered, h.settled⟩

theorem knowing {knowledge : Knowledge} (hknowledge : ground.Knows knowledge) :
    region.OnWay before current owed frontier { memory with knowledge } :=
  ⟨⟨hknowledge, h.keeps.analyses⟩, h.start, h.files, h.order, h.distinct, h.met, h.answered,
    h.settled⟩

/-- A dependency that was met still counts as met when more paths are. -/
theorem settled_cons (path : Path) : ∀ file ∈ before, ∃ analysis,
    memory.analyses[file.path.parts]? = some analysis ∧ ∀ d ∈ analysis.dependencies.locals,
      d.path.parts ∈ path.parts :: frontier.visited ∨ d.path ∈ owed := by
  intro file hfile
  obtain ⟨analysis, hanalysis, hlocals⟩ := h.settled file hfile
  exact ⟨analysis, hanalysis, fun d hd => (hlocals d hd).imp_left (List.mem_cons_of_mem _)⟩

/-- A path that was met and may fail. -/
theorem fail {path : Path} (hfails : region.Fails path) :
    region.OnWay before current owed
      { frontier with visited := path.parts :: frontier.visited } memory := by
  refine ⟨h.keeps, h.start, h.files, h.order, h.distinct, fun file hfile => ?_, fun key hkey => ?_,
    h.settled_cons path⟩
  · exact List.mem_cons_of_mem _ (h.met file hfile)
  · rcases List.mem_cons.1 hkey with rfl | hkey
    · exact .inr ⟨path, rfl, hfails⟩
    · exact h.answered key hkey

/-- A file that was met for the first time joins the files and waits. -/
theorem push {path : Path} {file : SourceFile} (hfile : region.Holds file.path)
    (hparts : file.path.parts = path.parts) (hfresh : path.parts ∉ frontier.visited) :
    region.OnWay before current owed
      ⟨{ frontier.reach with files := frontier.reach.files ++ [file] },
        path.parts :: frontier.visited, frontier.queue ++ [file]⟩ memory := by
  have hfiles : ∀ other ∈ frontier.reach.files ++ [file], region.Holds other.path := by
    intro other hother
    rcases List.mem_append.1 hother with hother | hother
    · exact h.files other hother
    · rw [List.mem_singleton.1 hother]
      exact hfile
  have horder : frontier.reach.entrypoint :: (frontier.reach.files ++ [file])
      = before ++ current ++ (frontier.queue ++ [file]) := by
    rw [← List.cons_append, h.order, List.append_assoc]
  have hdistinct : ((frontier.reach.entrypoint :: (frontier.reach.files ++ [file])).map
      (·.path.parts)).Nodup := by
    rw [← List.cons_append, List.map_append, List.map_singleton]
    refine List.nodup_append.2 ⟨h.distinct, by simp, ?_⟩
    intro key hkey last hlast hsame
    obtain ⟨other, hother, rfl⟩ := List.mem_map.1 hkey
    apply hfresh
    rw [← hparts, ← List.mem_singleton.1 hlast, ← hsame]
    exact h.met other hother
  have hmet : ∀ other ∈ frontier.reach.entrypoint :: (frontier.reach.files ++ [file]),
      other.path.parts ∈ path.parts :: frontier.visited := by
    intro other hother
    rw [← List.cons_append] at hother
    rcases List.mem_append.1 hother with hother | hother
    · exact List.mem_cons_of_mem _ (h.met other hother)
    · rw [List.mem_singleton.1 hother, hparts]
      exact List.mem_cons_self
  have hanswered : ∀ key ∈ path.parts :: frontier.visited,
      (∃ other ∈ frontier.reach.entrypoint :: (frontier.reach.files ++ [file]),
        other.path.parts = key) ∨ ∃ path : Path, path.parts = key ∧ region.Fails path := by
    intro key hkey
    rcases List.mem_cons.1 hkey with rfl | hkey
    · exact .inl ⟨file, by simp, hparts⟩
    · refine (h.answered key hkey).imp_left fun ⟨other, hother, hsame⟩ => ⟨other, ?_, hsame⟩
      exact List.mem_append_left _ hother
  exact ⟨h.keeps, h.start, hfiles, horder, hdistinct, hmet, hanswered, h.settled_cons path⟩

end OnWay

/-- The next file is taken from the queue. -/
theorem OnWay.pop (h : region.OnWay before [] owed frontier memory) {file : SourceFile}
    {queue : List SourceFile} (hqueue : frontier.queue = file :: queue) :
    region.OnWay before [file] owed { frontier with queue } memory := by
  have horder : frontier.reach.entrypoint :: frontier.reach.files = before ++ [file] ++ queue := by
    rw [h.order, hqueue]
    simp
  exact ⟨h.keeps, h.start, h.files, horder, h.distinct, h.met, h.answered, h.settled⟩

/-- The current file was taken apart: its dependencies are owed now. -/
theorem OnWay.settle {file : SourceFile} (h : region.OnWay before [file] [] frontier memory)
    {analysis : Analysis} (hrecorded : memory.analyses[file.path.parts]? = some analysis) :
    region.OnWay (before ++ [file]) [] (analysis.dependencies.locals.map LocalDependency.path)
      frontier memory := by
  have hsettled : ∀ other ∈ before ++ [file], ∃ found,
      memory.analyses[other.path.parts]? = some found ∧ ∀ d ∈ found.dependencies.locals,
        d.path.parts ∈ frontier.visited ∨
          d.path ∈ analysis.dependencies.locals.map LocalDependency.path := by
    intro other hother
    rcases List.mem_append.1 hother with hother | hother
    · obtain ⟨found, hfound, hlocals⟩ := h.settled other hother
      exact ⟨found, hfound, fun d hd => .inl (by simpa using hlocals d hd)⟩
    · rw [List.mem_singleton.1 hother]
      exact ⟨analysis, hrecorded, fun d hd => .inr (List.mem_map_of_mem hd)⟩
  exact ⟨h.keeps, h.start, h.files, by rw [List.append_nil, h.order], h.distinct, h.met,
    h.answered, hsettled⟩

/-- A path that was met is no longer owed. -/
theorem OnWay.pay {path : Path} (h : region.OnWay before current (path :: owed) frontier memory)
    (hmet : path.parts ∈ frontier.visited) :
    region.OnWay before current owed frontier memory := by
  have hsettled : ∀ file ∈ before, ∃ analysis,
      memory.analyses[file.path.parts]? = some analysis ∧ ∀ d ∈ analysis.dependencies.locals,
        d.path.parts ∈ frontier.visited ∨ d.path ∈ owed := by
    intro file hfile
    obtain ⟨analysis, hanalysis, hlocals⟩ := h.settled file hfile
    refine ⟨analysis, hanalysis, fun d hd => ?_⟩
    rcases hlocals d hd with hvisited | howed
    · exact .inl hvisited
    · rcases List.mem_cons.1 howed with hpath | howed
      · exact .inl (hpath ▸ hmet)
      · exact .inr howed
  exact ⟨h.keeps, h.start, h.files, h.order, h.distinct, h.met, h.answered, hsettled⟩

/-- The current file is none of those before it, so its analysis takes no other's place. -/
theorem OnWay.insert {file : SourceFile} (h : region.OnWay before [file] owed frontier memory)
    {analysis : Analysis} (hanalysis : ground.Records file analysis) :
    region.OnWay before [file] owed frontier
      { memory with analyses := memory.analyses.insert file.path.parts analysis } := by
  have hdistinct := h.distinct
  rw [h.order, List.append_assoc, List.map_append] at hdistinct
  have hother : ∀ other ∈ before, file.path.parts ≠ other.path.parts := by
    intro other hother hsame
    apply (List.nodup_append.1 hdistinct).2.2 _ (List.mem_map_of_mem hother) file.path.parts
    · simp
    · exact hsame.symm
  have hsettled : ∀ other ∈ before, ∃ found,
      (memory.analyses.insert file.path.parts analysis)[other.path.parts]? = some found ∧
        ∀ d ∈ found.dependencies.locals, d.path.parts ∈ frontier.visited ∨ d.path ∈ owed := by
    intro other hmem
    have hne := hother other hmem
    obtain ⟨found, hfound, hlocals⟩ := h.settled other hmem
    exact ⟨found, by simpa [Std.HashMap.getElem?_insert, hne] using hfound, hlocals⟩
  exact ⟨h.keeps.insert hanalysis, h.start, h.files, h.order, h.distinct, h.met, h.answered,
    hsettled⟩

end Ground.Region

end

/-! ## Steps -/

section

variable {m : Type → Type} [Monad m] [LawfulMonad m] {s : Session m} {ground : s.Ground}
  {region : ground.Region} {before current : List SourceFile} {owed : List Path}

theorem withKnowledge_keeps {α : Type} {p : α → Prop} {x : StateT Knowledge m α}
    (h : Ensures ground.Knows x p) : Ensures ground.Keeps (withKnowledge x) p :=
  h.withKnowledge (fun _ hmemory => hmemory.knowledge) fun _ _ hmemory hknowledge =>
    ⟨hknowledge, hmemory.analyses⟩

theorem withKnowledge_onWay {α : Type} {p : α → Prop} {x : StateT Knowledge m α}
    (h : Ensures ground.Knows x p) (frontier : Frontier) :
    Ensures (region.OnWay before current owed frontier) (withKnowledge x) p :=
  h.withKnowledge (fun _ hmemory => hmemory.keeps.knowledge) fun _ _ hmemory hknowledge =>
    hmemory.knowing hknowledge

theorem classifyAll_onWay (file : SourceFile) (specifiers : List String) (frontier : Frontier) :
    Ensures (region.OnWay before current owed frontier) (s.classifyAll file specifiers)
      fun found => ∀ answer ∈ found, ∀ d, answer = .localFile d → ground.Finds file d := by
  unfold classifyAll
  exact Ensures.forall_mapM fun specifier _ =>
    withKnowledge_onWay (ground.classify file specifier) frontier

/-- The current file is remembered, and the others stay. -/
theorem analyze_onWay (file : SourceFile) (frontier : Frontier) :
    Leads (region.OnWay before [file] owed frontier) (s.analyze file) fun result memory =>
      region.OnWay before [file] owed frontier memory ∧ ∀ analysis, result = .ok analysis →
        memory.analyses[file.path.parts]? = some analysis := by
  have hrecord : ∀ analysis, ground.Records file analysis →
      Leads (region.OnWay before [file] owed frontier) (do
        modify fun memory =>
          { memory with analyses := memory.analyses.insert file.path.parts analysis }
        return .ok analysis : StateT Memory m (Except ResolveError Analysis))
        fun result memory => region.OnWay before [file] owed frontier memory ∧
          ∀ analysis, result = .ok analysis →
            memory.analyses[file.path.parts]? = some analysis := by
    intro analysis hanalysis
    refine (Leads.modify (J := fun memory => region.OnWay before [file] owed frontier memory ∧
      memory.analyses[file.path.parts]? = some analysis) fun memory h => ?_).bind fun _ =>
        .pure fun memory h => ⟨h.1, ?_⟩
    · exact ⟨h.insert hanalysis, by simp⟩
    · intro other hother
      cases hother
      exact h.2
  unfold analyze
  refine Leads.get.bind fun known => ?_
  cases hknown : known.analyses[file.path.parts]? with
  | some analysis =>
      refine .pure fun memory h => ⟨h.2, fun other hother => ?_⟩
      cases hother
      rw [← h.1, hknown]
  | none =>
      cases hextraction : s.extractor file with
      | error error => exact .pure fun memory h => ⟨h.2, by simp⟩
      | ok extraction =>
          have hkind := kind?_ne_none_of_extractor hextraction
          refine Leads.weaken ?_ fun memory h => h.2
          cases extraction with
          | syntaxError message =>
              simp only [pure_bind]
              exact hrecord _ ⟨hkind, by simp, fun _ => rfl⟩
          | specifiers found =>
              simp only [pure_bind]
              refine (classifyAll_onWay file found frontier).leads fun classifications h => ?_
              exact hrecord _ (Ground.records_of_classifications hkind found h)

/-- A path of the region is loaded and queued when it is met for the first time. -/
theorem meet_onWay {path : Path} (hpath : region.Holds path) (frontier : Frontier) :
    Leads (region.OnWay before [] (path :: owed) frontier) (s.meet frontier path)
      (region.Leaves before owed) := by
  unfold meet
  split
  · rename_i hmet
    exact .pure fun memory h => region.leaves_ok (h.pay (by simpa using hmet))
  · rename_i hfresh
    simp only
    split
    · exact .pure fun memory h => region.leaves_error h.keeps
    · refine (withKnowledge_onWay (region.load path (.inr hpath)) frontier).leads
        fun found hfound => ?_
      cases found with
      | error error =>
          refine .pure fun memory h => region.leaves_ok ?_
          exact ((h.fail hfound).pay (by simp)).of_eq rfl rfl rfl rfl
      | ok file =>
          have hfile := region.holds_congr path file.path hfound.symm hpath
          refine .pure fun memory h => region.leaves_ok ?_
          exact (h.push hfile hfound (by simpa using hfresh)).pay (by simp)

/-- The notes of a step name only places where the traversal may be. -/
theorem meetNoted_onWay {path : Path} (hpath : region.Holds path) (frontier : Frontier) :
    LeadsAlong (fun p => region.Start p ∨ region.Holds p)
      (region.OnWay before [] (path :: owed) frontier) (s.meetNoted frontier path)
      (region.Leaves before owed) := by
  unfold meetNoted
  split
  · exact .lift (meet_onWay hpath frontier)
  · exact .noted (.inr hpath) (.lift (meet_onWay hpath frontier))

theorem meetAllNoted_onWay {paths : List Path} (hpaths : ∀ path ∈ paths, region.Holds path)
    (frontier : Frontier) :
    LeadsAlong (fun p => region.Start p ∨ region.Holds p) (region.OnWay before [] paths frontier)
      (s.meetAllNoted paths frontier) (region.Leaves before []) := by
  induction paths generalizing frontier with
  | nil => exact .pure fun memory h => region.leaves_ok h
  | cons path rest ih =>
      unfold meetAllNoted
      refine (meetNoted_onWay (hpaths path (by simp)) frontier).bind fun result => ?_
      cases result with
      | error error => exact .pure fun memory h => region.leaves_error h.1
      | ok next =>
          have hrest := ih (fun other hother => hpaths other (by simp [hother])) next
          exact hrest.weaken fun memory h => h.2 next rfl

omit [Monad m] [LawfulMonad m] in
/-- To note the problems of a file adds missing paths, and modules where they are checked. -/
theorem exists_noteProblems (file : SourceFile) (analysis : Analysis) (reach : Reach) :
    ∃ missing, s.noteProblems file analysis reach =
      if s.options.checksModules then
        { reach with missing }.addUnsupported file.path
          (Policy.unsupported s.options.supported analysis.dependencies.external)
      else { reach with missing } := by
  have hfold := foldl_addMissing_eq
    (analysis.dependencies.missing.map MissingDependency.attempted) reach
  rw [List.foldl_map] at hfold
  unfold noteProblems
  rw [hfold]
  exact ⟨_, rfl⟩

omit [Monad m] [LawfulMonad m] in
theorem noteProblems_found (file : SourceFile) (analysis : Analysis) (reach : Reach) :
    (s.noteProblems file analysis reach).entrypoint = reach.entrypoint ∧
      (s.noteProblems file analysis reach).files = reach.files := by
  obtain ⟨missing, hnoted⟩ := exists_noteProblems (s := s) file analysis reach
  rw [hnoted]
  split
  · unfold Reach.addUnsupported
    split <;> exact ⟨rfl, rfl⟩
  · exact ⟨rfl, rfl⟩

/-- A round takes the current file apart and meets its dependencies. -/
theorem visitNoted_onWay (file : SourceFile) (frontier : Frontier) :
    LeadsAlong (fun p => region.Start p ∨ region.Holds p) (region.OnWay before [file] [] frontier)
      (s.visitNoted file frontier) (region.Leaves (before ++ [file]) []) := by
  unfold visitNoted
  refine (LeadsAlong.lift (analyze_onWay file frontier)).bind fun result => ?_
  cases result with
  | error error => exact .pure fun memory h => region.leaves_error h.1.keeps
  | ok analysis =>
      simp only
      cases hfailure : analysis.failure with
      | some message =>
          refine .pure fun memory h => region.leaves_ok ?_
          have hrecorded := h.2 analysis rfl
          have hnone := (h.1.keeps.analyses file analysis hrecorded).failed (by simp [hfailure])
          have hsettled := h.1.settle hrecorded
          rw [hnone, List.map_nil] at hsettled
          exact hsettled.of_eq rfl rfl rfl rfl
      | none =>
          intro trail htrail memory h
          obtain ⟨hway, hrecorded⟩ := h
          have hrecorded := hrecorded analysis rfl
          have hmem : file ∈ frontier.reach.entrypoint :: frontier.reach.files := by
            rw [hway.order]
            simp
          have hpaths : ∀ path ∈ analysis.dependencies.locals.map LocalDependency.path,
              region.Holds path := by
            intro path hpath
            obtain ⟨d, hd, rfl⟩ := List.mem_map.1 hpath
            have hrecords := hway.keeps.analyses file analysis hrecorded
            exact region.step file d hrecords.kind (hway.holds hmem) (hrecords.finds d hd)
          have hnoted := noteProblems_found (s := s) file analysis frontier.reach
          have hstart : region.OnWay (before ++ [file]) []
              (analysis.dependencies.locals.map LocalDependency.path)
              { frontier with reach := s.noteProblems file analysis frontier.reach } memory :=
            (hway.settle hrecorded).of_eq hnoted.1 hnoted.2 rfl rfl
          exact meetAllNoted_onWay hpaths _ trail htrail memory hstart

theorem visit_onWay (file : SourceFile) (frontier : Frontier) :
    Leads (region.OnWay before [file] [] frontier) (s.visit file frontier)
      (region.Leaves (before ++ [file]) []) :=
  (visitNoted_onWay file frontier).forget (s.visitNoted_forgets file frontier)

/-! ## Runs -/

/-- By induction on the rounds: at the end no file waits. -/
theorem traverseNoted_onWay (fuel : Nat) (frontier : Frontier) :
    LeadsAlong (fun p => region.Start p ∨ region.Holds p)
      (fun memory => ∃ before, region.OnWay before [] [] frontier memory)
      (s.traverseNoted fuel frontier) fun result memory => ground.Keeps memory ∧
        ∀ next, result = .ok next →
          next.queue = [] ∧ ∃ before, region.OnWay before [] [] next memory := by
  have hdone : ∀ frontier : Frontier, frontier.queue = [] →
      LeadsAlong (fun p => region.Start p ∨ region.Holds p)
        (fun memory => ∃ before, region.OnWay before [] [] frontier memory)
        (return .ok frontier : StateT (List Path) (StateT Memory m) (Except ResolveError Frontier))
        fun result memory => ground.Keeps memory ∧ ∀ next, result = .ok next →
          next.queue = [] ∧ ∃ before, region.OnWay before [] [] next memory := by
    intro frontier hqueue
    refine .pure fun memory h => ⟨h.choose_spec.keeps, fun next hnext => ?_⟩
    cases hnext
    exact ⟨hqueue, h⟩
  induction fuel generalizing frontier with
  | zero =>
      unfold traverseNoted
      cases hqueue : frontier.queue with
      | nil => exact hdone frontier hqueue
      | cons file queue => exact .pure fun memory h => ⟨h.choose_spec.keeps, by simp⟩
  | succ fuel ih =>
      unfold traverseNoted
      cases hqueue : frontier.queue with
      | nil => exact hdone frontier hqueue
      | cons file queue =>
          refine LeadsAlong.of_exists fun before => ?_
          refine ((visitNoted_onWay file _).weaken fun memory h => h.pop hqueue).bind
            fun result => ?_
          cases result with
          | error error => exact .pure fun memory h => ⟨h.1, by simp⟩
          | ok next => exact (ih next).weaken fun memory h => ⟨_, h.2 next rfl⟩

/-- What a traversal has found when it is over: files of different paths, each of which was taken
apart, with all its dependencies but those that may fail. -/
structure Ground.Region.Covers (region : ground.Region) (reach : Reach) (memory : Memory) :
    Prop where
  start : region.Start reach.entrypoint.path
  files : ∀ file ∈ reach.files, region.Holds file.path
  distinct : ((reach.entrypoint :: reach.files).map (·.path.parts)).Nodup
  analyses : ∀ file ∈ reach.entrypoint :: reach.files, ∃ analysis,
    memory.analyses[file.path.parts]? = some analysis ∧ ground.Records file analysis ∧
      ∀ d ∈ analysis.dependencies.locals,
        (∃ other ∈ reach.entrypoint :: reach.files, other.path.parts = d.path.parts) ∨
          ∃ path : Path, path.parts = d.path.parts ∧ region.Fails path

omit [LawfulMonad m] in
theorem Ground.Region.OnWay.covers {frontier : Frontier} {memory : Memory}
    (h : region.OnWay before [] [] frontier memory) (hqueue : frontier.queue = []) :
    region.Covers frontier.reach memory := by
  refine ⟨h.start, h.files, h.distinct, fun file hfile => ?_⟩
  rw [h.order, hqueue, List.append_nil, List.append_nil] at hfile
  obtain ⟨analysis, hanalysis, hlocals⟩ := h.settled file hfile
  refine ⟨analysis, hanalysis, h.keeps.analyses file analysis hanalysis, fun d hd => ?_⟩
  rcases hlocals d hd with hmet | howed
  · exact h.answered _ hmet
  · cases howed

/-- The walk from an entrypoint where the traversal may start. -/
theorem collectNoted_covers (region : ground.Region) {e : Path}
    (hstart : region.Start e.normalize) :
    LeadsAlong (fun p => region.Start p ∨ region.Holds p) ground.Keeps (s.collectNoted e)
      fun result memory => ground.Keeps memory ∧
        ∀ reach, result = .ok reach → region.Covers reach memory := by
  unfold collectNoted
  have hload := withKnowledge_keeps (region.load e.normalize (.inl hstart))
  refine LeadsAlong.lift_bind hload fun found hfound => ?_
  cases found with
  | error error => exact .pure fun memory h => ⟨h, by simp⟩
  | ok file =>
      have hfile : region.Start file.path := region.start_congr _ _ hfound.symm hstart
      apply LeadsAlong.noted (.inl hfile)
      have hway : ∀ memory, ground.Keeps memory → ∃ before, region.OnWay before [] []
          ⟨{ entrypoint := file }, [file.path.parts], [file]⟩ memory :=
        fun memory h => ⟨[], region.onWay_start h hfile⟩
      refine ((traverseNoted_onWay _ _).weaken hway).bind fun result => ?_
      cases result with
      | error error => exact .pure fun memory h => ⟨h.1, by simp⟩
      | ok last =>
          refine .pure fun memory h => ⟨h.1, fun reach hreach => ?_⟩
          cases hreach
          obtain ⟨hqueue, before, hlast⟩ := h.2 last rfl
          exact hlast.covers hqueue

theorem collect_covers (region : ground.Region) {e : Path} (hstart : region.Start e.normalize) :
    Leads ground.Keeps (s.collect e) fun result memory => ground.Keeps memory ∧
      ∀ reach, result = .ok reach → region.Covers reach memory :=
  (collectNoted_covers region hstart).forget (s.collectNoted_forgets e)

/-! ## Any past -/

omit [LawfulMonad m] in
theorem Ground.keeps_empty (h : ground.Knows {}) : ground.Keeps {} :=
  ⟨h, fun file analysis hanalysis => by simp at hanalysis⟩

/-- All places, where every load is safe. -/
def Ground.everywhere (ground : s.Ground) (hload : ∀ path,
    Ensures ground.Knows (Knowledge.load s.loader path) (GivesOrFails (fun _ => True) path)) :
    ground.Region where
  Start _ := True
  Holds _ := True
  Fails _ := True
  start_congr _ _ _ h := h
  holds_congr _ _ _ h := h
  load path _ := hload path
  step _ _ _ _ _ := trivial

section

variable (hload : ∀ path,
    Ensures ground.Knows (Knowledge.load s.loader path) (GivesOrFails (fun _ => True) path))

include hload

/-- Where every load is safe, every call keeps to the ground. -/
theorem performAll_keeps (calls : List (Call m)) :
    Ensures ground.Keeps (s.performAll calls) fun _ => True := by
  refine performAll_ensures (fun e => ?_) calls
  have hcollect := collect_covers (ground.everywhere hload) (e := e) trivial
  exact hcollect.mono fun _ _ h => ⟨trivial, h.1⟩

theorem performAll_collectNoted (region : ground.Region) (hempty : ground.Knows {}) {e : Path}
    (hstart : region.Start e.normalize) (calls : List (Call m)) :
    Always (fun result => (∀ path ∈ result.1.2, region.Start path ∨ region.Holds path) ∧
        ∀ reach, result.1.1 = .ok reach → region.Covers reach result.2)
      ((do s.performAll calls; (s.collectNoted e).run []).run {}) := by
  have hrun := (performAll_keeps hload calls).leads fun _ _ =>
    collectNoted_covers region hstart [] (by simp)
  exact (hrun {} (ground.keeps_empty hempty)).mono fun _ h => ⟨h.2, h.1.2⟩

theorem performAll_collect (region : ground.Region) (hempty : ground.Knows {}) {e : Path}
    (hstart : region.Start e.normalize) (calls : List (Call m)) :
    Always (fun result => ∀ reach, result.1 = .ok reach → region.Covers reach result.2)
      ((do s.performAll calls; s.collect e).run {}) := by
  have hrun := (performAll_keeps hload calls).leads fun _ _ => collect_covers region hstart
  exact (hrun {} (ground.keeps_empty hempty)).mono fun _ h => h.2

end

end

end Session

end ModuleTrace
