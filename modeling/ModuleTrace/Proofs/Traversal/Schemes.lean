import ModuleTrace.Proofs.Resolution.Growth
import ModuleTrace.Proofs.Traversal.Problems
import ModuleTrace.Proofs.Traversal.Terrain

/-!
# Modules behind the scheme

A specifier with the scheme comes from elsewhere without a look at any file, and the policy asks
for the module behind the scheme. A traversal reports exactly those that the policy rejects, with
the files that include them: what is remembered of a file is told of the file as it was read, and
as it stays in memory.
-/

namespace ModuleTrace

/-! ## Names behind the scheme -/

namespace Specifier

/-- The text names a package and nothing inside it. -/
structure NamesPackage (name : String) : Prop where
  whole : packagePart name.toList = name.toList
  scope : name.toList.head? = some '@' → '/' ∈ name.toList

theorem packageName_scheme {name : String} (h : NamesPackage name) {rest : String}
    (hrest : rest = "" ∨ ∃ sub, rest = "/" ++ sub) :
    hasScheme (scheme ++ name ++ rest) = true ∧ packageName (scheme ++ name ++ rest) = name := by
  have hdrop : Affix.dropStart? scheme (scheme ++ name ++ rest) = some (name ++ rest) :=
    Affix.dropStart?_eq_some_iff.2 (String.append_assoc ..)
  refine ⟨Affix.begins_iff.2 ⟨name ++ rest, String.append_assoc ..⟩, ?_⟩
  have hpart : packagePart (name ++ rest).toList = name.toList := by
    rcases hrest with rfl | ⟨sub, rfl⟩
    · simpa using h.whole
    · simpa using packagePart_append_slash h.whole h.scope sub.toList
  rw [packageName, hdrop, Option.getD_some, hpart, String.ofList_toList]

end Specifier

namespace Policy

theorem supports_iff (listed : List String) (specifier : String) :
    supports listed specifier = true ↔ Specifier.packageName specifier ∈ builtins ∨
      specifier ∈ listed ∨ Specifier.packageName specifier ∈ listed := by
  rw [supports, Bool.or_eq_true, Bool.or_eq_true, List.contains_iff_mem, List.contains_iff_mem,
    List.contains_iff_mem, or_assoc, or_comm (a := _ ∈ listed)]

end Policy

/-- What has a scheme comes from elsewhere, whatever is known. -/
theorem Classifier.classify_scheme {m : Type → Type} [Monad m] (loader : Loader m)
    (s : Surroundings) (file : SourceFile) {specifier : String}
    (h : Specifier.hasScheme specifier = true) :
    classify loader s file specifier = pure (.external specifier) := by
  unfold classify
  rw [if_pos h]

/-- A traversal reports that a file includes a module which is not supported. -/
def Reach.Reports (reach : Reach) (file : SourceFile) (specifier : String) : Prop :=
  ∃ x ∈ reach.unsupported, x.file = file.path ∧ specifier ∈ x.names

namespace Session

variable {m : Type → Type}

/-! ## What is remembered of a file -/

def Tells (s : Session m) (file : SourceFile) (analysis : Analysis) : Prop :=
  ∀ found, s.extractor file = .ok (.specifiers found) → analysis.failure = none ∧
    ∀ specifier ∈ found, Specifier.hasScheme specifier = true →
      specifier ∈ analysis.dependencies.external

/-- What is remembered under the path of a file was learned from the file that was read there. -/
structure Informed (s : Session m) (memory : Memory) : Prop where
  tidy : memory.knowledge.sources.Tidy
  told : ∀ (key : List Path.Part) (analysis : Analysis), memory.analyses[key]? = some analysis →
    ∃ file, memory.knowledge.sources.files[key]? = some file ∧ s.Tells file analysis

def Remembers (memory : Memory) (file : SourceFile) : Prop :=
  memory.knowledge.sources.files[file.path.parts]? = some file

variable {s : Session m} {memory : Memory}

theorem Informed.grow (h : s.Informed memory) {knowledge : Knowledge}
    (hgrown : memory.knowledge.sources.GrownFrom knowledge.sources) :
    s.Informed { memory with knowledge } := by
  refine ⟨hgrown.1, fun key analysis hanalysis => ?_⟩
  obtain ⟨file, hfile, htells⟩ := h.told key analysis hanalysis
  exact ⟨file, hgrown.2 key file hfile, htells⟩

theorem Remembers.grow {file : SourceFile} (h : Remembers memory file) {knowledge : Knowledge}
    (hgrown : memory.knowledge.sources.GrownFrom knowledge.sources) :
    Remembers { memory with knowledge } file :=
  hgrown.2 _ file h

theorem Informed.insert (h : s.Informed memory) {file : SourceFile} (hfile : Remembers memory file)
    {analysis : Analysis} (htells : s.Tells file analysis) :
    s.Informed { memory with analyses := memory.analyses.insert file.path.parts analysis } := by
  refine ⟨h.tidy, fun key found hfound => ?_⟩
  rcases insert_entry_cases hfound with ⟨rfl, rfl⟩ | hold
  · exact ⟨file, hfile, htells⟩
  · exact h.told key found hold

/-- What is recorded of a file that is in memory was learned from it. -/
theorem Informed.tells (h : s.Informed memory) {file : SourceFile} (hfile : Remembers memory file)
    {analysis : Analysis} (hknown : memory.analyses[file.path.parts]? = some analysis) :
    s.Tells file analysis := by
  obtain ⟨other, hother, htells⟩ := h.told _ analysis hknown
  obtain rfl : file = other := Option.some.inj (hfile.symm.trans hother)
  exact htells

theorem tells_of_classifications {file : SourceFile} {found : List String}
    (hextraction : s.extractor file = .ok (.specifiers found)) {answers : List Classification}
    (h : List.Forall₂ (fun answer specifier => Specifier.hasScheme specifier = true →
      answer = .external specifier) answers found) :
    s.Tells file ⟨found, .ofClassifications answers, none⟩ := by
  intro other hother
  obtain rfl : found = other := by simpa [hextraction] using hother
  refine ⟨rfl, fun specifier hspecifier hscheme => ?_⟩
  obtain ⟨answer, hanswer, hexternal⟩ := exists_left h hspecifier
  exact List.mem_filterMap.2 ⟨answer, hanswer, by rw [hexternal hscheme]⟩

/-! ## What is reported -/

def Covered (s : Session m) (reach : Reach) (file : SourceFile) : Prop :=
  ∀ found, s.extractor file = .ok (.specifiers found) → ∀ specifier ∈ found,
    Specifier.hasScheme specifier = true →
      Policy.supports s.options.supported specifier = false → reach.Reports file specifier

def Fair (s : Session m) (reach : Reach) : Prop :=
  ∀ x ∈ reach.unsupported, ∀ name ∈ x.names, Policy.supports s.options.supported name = false

theorem unsupported_noteProblems (checks : s.options.checksModules = true) (file : SourceFile)
    (analysis : Analysis) (reach : Reach) :
    (s.noteProblems file analysis reach).unsupported
      = (reach.addUnsupported file.path
          (Policy.unsupported s.options.supported analysis.dependencies.external)).unsupported := by
  obtain ⟨missing, hnoted⟩ := exists_noteProblems (s := s) file analysis reach
  rw [hnoted, if_pos checks]
  unfold Reach.addUnsupported
  split <;> rfl

theorem mem_addUnsupported {reach : Reach} {file : Path} {names : List String}
    {x : UnsupportedModules} : x ∈ (reach.addUnsupported file names).unsupported ↔
      x ∈ reach.unsupported ∨ names ≠ [] ∧ x = ⟨file, names⟩ := by
  unfold Reach.addUnsupported
  cases names <;> simp

/-- A traversal on its way: it has taken apart the first files, is at the current ones, and the
others wait. All of them are in memory as they were read, and what is reported covers the first
files. -/
structure Reporting (s : Session m) (before current : List SourceFile) (frontier : Frontier)
    (memory : Memory) : Prop where
  informed : s.Informed memory
  remembers : ∀ file ∈ frontier.reach.entrypoint :: frontier.reach.files, Remembers memory file
  order : frontier.reach.entrypoint :: frontier.reach.files = before ++ current ++ frontier.queue
  covered : ∀ file ∈ before, s.Covered frontier.reach file
  fair : s.Fair frontier.reach

namespace Reporting

variable {before current : List SourceFile} {frontier : Frontier} {memory : Memory}

/-- Of what was found only the files and the reports on modules matter. -/
theorem of_eq (h : s.Reporting before current frontier memory) {other : Frontier}
    (hentry : other.reach.entrypoint = frontier.reach.entrypoint)
    (hfiles : other.reach.files = frontier.reach.files)
    (hunsupported : other.reach.unsupported = frontier.reach.unsupported)
    (hqueue : other.queue = frontier.queue) :
    s.Reporting before current other memory := by
  obtain ⟨⟨entry, files, missing, unsupported, failures⟩, visited, queue⟩ := other
  simp only at hentry hfiles hunsupported hqueue
  subst hentry hfiles hunsupported hqueue
  exact ⟨h.informed, h.remembers, h.order, h.covered, h.fair⟩

/-- A file that is in memory joins the files and waits. -/
theorem push (h : s.Reporting before current frontier memory) {file : SourceFile}
    (hfile : Remembers memory file) (visited : List (List Path.Part)) :
    s.Reporting before current
      ⟨{ frontier.reach with files := frontier.reach.files ++ [file] }, visited,
        frontier.queue ++ [file]⟩ memory := by
  refine ⟨h.informed, fun other hother => ?_, ?_, h.covered, h.fair⟩
  · rw [← List.cons_append] at hother
    rcases List.mem_append.1 hother with hother | hother
    · exact h.remembers other hother
    · rw [List.mem_singleton.1 hother]
      exact hfile
  · rw [← List.cons_append, h.order, List.append_assoc]

/-- The next file is taken from the queue. -/
theorem pop (h : s.Reporting before [] frontier memory) {file : SourceFile}
    {queue : List SourceFile} (hqueue : frontier.queue = file :: queue) :
    s.Reporting before [file] { frontier with queue } memory := by
  refine ⟨h.informed, h.remembers, ?_, h.covered, h.fair⟩
  rw [h.order, hqueue]
  simp

/-- The current file is covered, by reports that add to those before. -/
theorem settle {file : SourceFile} (h : s.Reporting before [file] frontier memory) {reach : Reach}
    (hentry : reach.entrypoint = frontier.reach.entrypoint)
    (hfiles : reach.files = frontier.reach.files)
    (hold : ∀ x ∈ frontier.reach.unsupported, x ∈ reach.unsupported)
    (hcovered : s.Covered reach file) (hfair : s.Fair reach) :
    s.Reporting (before ++ [file]) [] { frontier with reach } memory := by
  refine ⟨h.informed, ?_, ?_, fun other hother => ?_, hfair⟩
  · simpa only [hentry, hfiles] using h.remembers
  · simpa only [hentry, hfiles, List.append_nil] using h.order
  · rcases List.mem_append.1 hother with hother | hother
    · intro found hfound specifier hspecifier hscheme hsupports
      obtain ⟨x, hx, hreports⟩ := h.covered other hother found hfound specifier hspecifier hscheme
        hsupports
      exact ⟨x, hold x hx, hreports⟩
    · rw [List.mem_singleton.1 hother]
      exact hcovered

end Reporting

/-- A file whose problems were noted is covered. -/
theorem covered_noteProblems (checks : s.options.checksModules = true) {file : SourceFile}
    {analysis : Analysis} (htells : s.Tells file analysis) (reach : Reach) :
    s.Covered (s.noteProblems file analysis reach) file := by
  intro found hfound specifier hspecifier hscheme hsupports
  have hexternal := (htells found hfound).2 specifier hspecifier hscheme
  have hname := (Policy.mem_unsupported_iff s.options.supported _ specifier).2
    ⟨hexternal, hsupports⟩
  refine ⟨⟨file.path, _⟩, ?_, rfl, hname⟩
  rw [unsupported_noteProblems checks]
  exact mem_addUnsupported.2 (.inr ⟨List.ne_nil_of_mem hname, rfl⟩)

theorem fair_noteProblems (checks : s.options.checksModules = true) (file : SourceFile)
    (analysis : Analysis) {reach : Reach} (h : s.Fair reach) :
    s.Fair (s.noteProblems file analysis reach) := by
  intro x hx name hname
  rw [unsupported_noteProblems checks] at hx
  rcases mem_addUnsupported.1 hx with hx | ⟨-, rfl⟩
  · exact h x hx name hname
  · exact ((Policy.mem_unsupported_iff s.options.supported _ name).1 hname).2

/-! ## Steps -/

/-- A fact about memory that does not change while memory of files grows. -/
structure Stable (I : Memory → Prop) : Prop where
  tidy : ∀ memory, I memory → memory.knowledge.sources.Tidy
  grow : ∀ memory knowledge, I memory →
    memory.knowledge.sources.GrownFrom knowledge.sources → I { memory with knowledge }

theorem stable_informed (s : Session m) : Stable s.Informed where
  tidy _ h := h.tidy
  grow _ _ h hgrown := h.grow hgrown

theorem stable_reporting (s : Session m) (before current : List SourceFile) (frontier : Frontier) :
    Stable (s.Reporting before current frontier) where
  tidy _ h := h.informed.tidy
  grow _ _ h hgrown := ⟨h.informed.grow hgrown,
    fun file hfile => (h.remembers file hfile).grow hgrown, h.order, h.covered, h.fair⟩

section

variable [Monad m] [LawfulMonad m] {I : Memory → Prop} (stable : Stable I)

include stable

/-- What lets memory of files grow keeps all that is stable. -/
theorem withKnowledge_stable {α : Type} {Q : α → Knowledge → Prop} {x : StateT Knowledge m α}
    (hx : ∀ before, Leads (Knowledge.OfSources (SourceCache.GrownFrom before)) x
      fun a knowledge =>
        Q a knowledge ∧ Knowledge.OfSources (SourceCache.GrownFrom before) knowledge) :
    Leads I (withKnowledge x) fun a memory => Q a memory.knowledge ∧ I memory := by
  intro memory hmemory
  -- The files grow from those that this very memory holds, so the rule is used for it alone.
  refine Leads.withKnowledge (I := (· = memory))
    (R := fun a after => Q a after.knowledge ∧ I after) (hx memory.knowledge.sources) ?_ ?_
    memory rfl
  · rintro _ rfl
    exact ⟨stable.tidy _ hmemory, .refl _⟩
  · rintro a _ knowledge rfl ⟨hvalue, hgrown⟩
    exact ⟨hvalue, stable.grow _ knowledge hmemory hgrown⟩

theorem load_stable (s : Session m) (path : Path) :
    Leads I (s.load path) fun answer memory =>
      (∀ file, answer = .ok file → Remembers memory file) ∧ I memory := by
  refine withKnowledge_stable stable (Q := fun answer knowledge => ∀ file : SourceFile,
    answer = Except.ok file → knowledge.sources.files[file.path.parts]? = some file)
    fun before => ?_
  exact (SourceCache.load_grows s.loader before path).withSources (fun _ h => h)
    fun answer _ _ _ h => ⟨fun file hfile => (h.2 file hfile).2, h.1⟩

theorem classifyAll_scheme (s : Session m) (file : SourceFile) (found : List String) :
    Ensures I (s.classifyAll file found) (List.Forall₂ (fun answer specifier =>
      Specifier.hasScheme specifier = true → answer = .external specifier) · found) := by
  refine Ensures.mapM (R := Eq) ?_ (List.forall₂_same.2 fun _ _ => rfl)
  rintro specifier _ rfl
  refine withKnowledge_stable stable (Q := fun (answer : Classification) _ =>
    Specifier.hasScheme specifier = true → answer = .external specifier) fun before => ?_
  by_cases hscheme : Specifier.hasScheme specifier = true
  · rw [Classifier.classify_scheme s.loader _ file hscheme]
    exact .pure fun _ h => ⟨fun _ => rfl, h⟩
  · have hkept := Classifier.classify_kept (SourceCache.grownFrom_kept s.loader before)
      (s.surroundings file) file specifier
    exact Leads.mono hkept fun _ _ h => ⟨fun h => absurd h hscheme, h.2⟩

end

section

variable [Monad m] [LawfulMonad m] {before : List SourceFile}

/-- What is learned from the current file, now or before, was learned from it as it was read. -/
theorem analyze_reporting (file : SourceFile) (frontier : Frontier) :
    Leads (s.Reporting before [file] frontier) (s.analyze file) fun result memory =>
      s.Reporting before [file] frontier memory ∧
        ∀ analysis, result = .ok analysis → s.Tells file analysis := by
  have hremembers : ∀ memory, s.Reporting before [file] frontier memory →
      Remembers memory file := by
    intro memory h
    exact h.remembers file (by rw [h.order]; simp)
  have hrecord : ∀ analysis, s.Tells file analysis →
      Leads (s.Reporting before [file] frontier) (do
        modify fun memory =>
          { memory with analyses := memory.analyses.insert file.path.parts analysis }
        return .ok analysis : StateT Memory m (Except ResolveError Analysis))
        fun result memory => s.Reporting before [file] frontier memory ∧
          ∀ analysis, result = .ok analysis → s.Tells file analysis := by
    intro analysis htells
    refine (Leads.modify (J := s.Reporting before [file] frontier) fun memory h => ?_).bind
      fun _ => .pure fun memory h => ⟨h, ?_⟩
    · exact ⟨h.informed.insert (hremembers memory h) htells, h.remembers, h.order, h.covered,
        h.fair⟩
    · rintro other ⟨⟩
      exact htells
  unfold analyze
  refine Leads.get.bind fun known => ?_
  cases hknown : known.analyses[file.path.parts]? with
  | some analysis =>
      refine .pure fun memory h => ⟨h.2, ?_⟩
      rintro other ⟨⟩
      obtain ⟨rfl, h⟩ := h
      -- The file that this was learned from is the one in memory, and that is the current one.
      exact h.informed.tells (hremembers _ h) hknown
  | none =>
      refine Leads.weaken ?_ fun memory h => h.2
      cases hextraction : s.extractor file with
      | error error => exact .pure fun memory h => ⟨h, by simp⟩
      | ok extraction =>
          cases extraction with
          | syntaxError message =>
              simp only [pure_bind]
              exact hrecord _ fun found hfound => by simp [hextraction] at hfound
          | specifiers found =>
              simp only [pure_bind]
              refine (classifyAll_scheme (stable_reporting s before [file] frontier) s file
                found).leads fun answers hanswers => ?_
              exact hrecord _ (tells_of_classifications hextraction hanswers)

/-- Paths that are met change nothing about reports on modules. -/
theorem meet_reporting (path : Path) (frontier : Frontier) :
    Leads (s.Reporting before [] frontier) (s.meet frontier path) fun result memory =>
      s.Informed memory ∧ ∀ next, result = .ok next → s.Reporting before [] next memory := by
  unfold meet
  split
  · exact .pure fun memory h => ⟨h.informed, by rintro next ⟨⟩; exact h⟩
  · simp only
    split
    · exact .pure fun memory h => ⟨h.informed, by simp⟩
    · refine (load_stable (stable_reporting s before [] frontier) s path).bind fun answer => ?_
      cases answer with
      | error error =>
          refine .pure fun memory h => ⟨h.2.informed, ?_⟩
          rintro next ⟨⟩
          exact h.2.of_eq rfl rfl rfl rfl
      | ok file =>
          refine .pure fun memory h => ⟨h.2.informed, ?_⟩
          rintro next ⟨⟩
          exact h.2.push (h.1 file rfl) _

theorem meetAll_reporting (paths : List Path) (frontier : Frontier) :
    Leads (s.Reporting before [] frontier) (s.meetAll paths frontier) fun result memory =>
      s.Informed memory ∧ ∀ next, result = .ok next → s.Reporting before [] next memory := by
  induction paths generalizing frontier with
  | nil => exact .pure fun memory h => ⟨h.informed, by rintro next ⟨⟩; exact h⟩
  | cons path rest ih =>
      unfold meetAll
      refine (meet_reporting path frontier).bind fun result => ?_
      cases result with
      | error error => exact .pure fun memory h => ⟨h.1, by simp⟩
      | ok next => exact (ih next).weaken fun memory h => h.2 next rfl

variable (checks : s.options.checksModules = true)

include checks

/-- A round takes the current file apart and covers it. -/
theorem visit_reporting (file : SourceFile) (frontier : Frontier) :
    Leads (s.Reporting before [file] frontier) (s.visit file frontier) fun result memory =>
      s.Informed memory ∧
        ∀ next, result = .ok next → s.Reporting (before ++ [file]) [] next memory := by
  unfold visit
  refine (analyze_reporting file frontier).bind fun result => ?_
  cases result with
  | error error => exact .pure fun memory h => ⟨h.1.informed, by simp⟩
  | ok analysis =>
      simp only
      cases hfailure : analysis.failure with
      | some message =>
          refine .pure fun memory h => ⟨h.1.informed, ?_⟩
          rintro next ⟨⟩
          refine h.1.settle rfl rfl (fun _ hx => hx) (fun found hfound => ?_) h.1.fair
          have hnone := (h.2 analysis rfl found hfound).1
          simp [hfailure] at hnone
      | none =>
          refine Leads.weaken (meetAll_reporting _ _) fun memory h => ?_
          have hnoted := noteProblems_found (s := s) file analysis frontier.reach
          refine h.1.settle hnoted.1 hnoted.2 (fun x hx => ?_)
            (covered_noteProblems checks (h.2 analysis rfl) _)
            (fair_noteProblems checks file analysis h.1.fair)
          rw [unsupported_noteProblems checks]
          exact mem_addUnsupported.2 (.inl hx)

/-- By induction on the rounds: at the end no file waits. -/
theorem traverse_reporting (fuel : Nat) (frontier : Frontier) :
    Leads (fun memory => ∃ before, s.Reporting before [] frontier memory)
      (s.traverse fuel frontier) fun result memory => s.Informed memory ∧
        ∀ next, result = .ok next →
          next.queue = [] ∧ ∃ before, s.Reporting before [] next memory := by
  have hdone : ∀ frontier : Frontier, frontier.queue = [] →
      Leads (fun memory => ∃ before, s.Reporting before [] frontier memory)
        (return .ok frontier : StateT Memory m (Except ResolveError Frontier))
        fun result memory => s.Informed memory ∧ ∀ next, result = .ok next →
          next.queue = [] ∧ ∃ before, s.Reporting before [] next memory := by
    intro frontier hqueue
    refine .pure fun memory h => ⟨h.choose_spec.informed, ?_⟩
    rintro next ⟨⟩
    exact ⟨hqueue, h⟩
  induction fuel generalizing frontier with
  | zero =>
      unfold traverse
      cases hqueue : frontier.queue with
      | nil => exact hdone frontier hqueue
      | cons file queue => exact .pure fun memory h => ⟨h.choose_spec.informed, by simp⟩
  | succ fuel ih =>
      unfold traverse
      cases hqueue : frontier.queue with
      | nil => exact hdone frontier hqueue
      | cons file queue =>
          refine Leads.of_forall fun before => ?_
          refine ((visit_reporting checks file _).weaken fun memory h => h.pop hqueue).bind
            fun result => ?_
          cases result with
          | error error => exact .pure fun memory h => ⟨h.1, by simp⟩
          | ok next => exact (ih next).weaken fun memory h => ⟨_, h.2 next rfl⟩

theorem collect_reporting (e : Path) :
    Leads s.Informed (s.collect e) fun result memory => s.Informed memory ∧
      ∀ reach, result = .ok reach → s.Fair reach ∧
        ∀ file ∈ reach.entrypoint :: reach.files, s.Covered reach file := by
  unfold collect
  refine (load_stable (stable_informed s) s _).bind fun answer => ?_
  cases answer with
  | error error => exact .pure fun memory h => ⟨h.2, by simp⟩
  | ok file =>
      have hstart : ∀ memory, (∀ other, (Except.ok file : Except ReadError SourceFile) = .ok other →
          Remembers memory other) ∧ s.Informed memory → ∃ before, s.Reporting before []
            ⟨{ entrypoint := file }, [file.path.parts], [file]⟩ memory := by
        intro memory h
        refine ⟨[], h.2, fun other hother => ?_, rfl, by simp, fun x hx => by cases hx⟩
        rw [List.mem_singleton.1 hother]
        exact h.1 file rfl
      refine Leads.bind ((traverse_reporting checks _ _).weaken hstart) fun result => ?_
      cases result with
      | error error => exact .pure fun memory h => ⟨h.1, by simp⟩
      | ok last =>
          refine .pure fun memory h => ⟨h.1, ?_⟩
          rintro reach ⟨⟩
          obtain ⟨hqueue, before, hlast⟩ := h.2 last rfl
          refine ⟨hlast.fair, fun file hfile => hlast.covered file ?_⟩
          rw [hlast.order, hqueue] at hfile
          simpa using hfile

end

/-! ## Modules that are reported -/

/-- Of all that the files of a traversal include by the scheme, exactly that is reported with them
which does not ship with the runtime and is not listed, neither itself nor by the module behind
the scheme. -/
def ReportsSchemes (s : Session m) (reach : Reach) : Prop :=
  ∀ file ∈ reach.entrypoint :: reach.files, ∀ found, s.extractor file = .ok (.specifiers found) →
    ∀ specifier ∈ found, Specifier.hasScheme specifier = true →
      (reach.Reports file specifier ↔ Specifier.packageName specifier ∉ Policy.builtins ∧
        specifier ∉ s.options.supported ∧
        Specifier.packageName specifier ∉ s.options.supported)

theorem reportsSchemes_of_covered {reach : Reach} (hfair : s.Fair reach)
    (hcovered : ∀ file ∈ reach.entrypoint :: reach.files, s.Covered reach file) :
    s.ReportsSchemes reach := by
  intro file hfile found hfound specifier hspecifier hscheme
  have hrejected : Policy.supports s.options.supported specifier = false ↔
      Specifier.packageName specifier ∉ Policy.builtins ∧ specifier ∉ s.options.supported ∧
        Specifier.packageName specifier ∉ s.options.supported := by
    rw [← Bool.not_eq_true, Policy.supports_iff, not_or, not_or]
  rw [← hrejected]
  constructor
  · rintro ⟨x, hx, -, hname⟩
    exact hfair x hx specifier hname
  · exact hcovered file hfile found hfound specifier hspecifier hscheme

/-- A module behind the scheme is supported when it ships with the runtime, but also when a list has
it without the scheme. All others are reported with every file that includes them, whatever a
loader answers and whatever was called before. -/
theorem collect_schemes [Monad m] [LawfulMonad m] (s : Session m) (calls : List (Call m))
    (e : Path) :
    (∀ listed specifier, Policy.supports listed specifier = true ↔
      Specifier.packageName specifier ∈ Policy.builtins ∨ specifier ∈ listed ∨
        Specifier.packageName specifier ∈ listed) ∧
    (∀ name rest : String, Specifier.NamesPackage name → (rest = "" ∨ ∃ sub, rest = "/" ++ sub) →
      Specifier.hasScheme (Specifier.scheme ++ name ++ rest) = true ∧
        Specifier.packageName (Specifier.scheme ++ name ++ rest) = name) ∧
    (s.options.checksModules = true →
      Always (fun result => ∀ reach, result.1 = .ok reach → s.ReportsSchemes reach)
        ((do s.performAll calls; s.collect e).run {})) := by
  refine ⟨Policy.supports_iff, fun name rest h hrest => Specifier.packageName_scheme h hrest,
    fun checks => ?_⟩
  have hcollect : ∀ e, Ensures s.Informed (s.collect e) fun _ => True := fun e =>
    Leads.mono (collect_reporting checks e) fun _ _ h => ⟨trivial, h.1⟩
  have hrun := (performAll_ensures hcollect calls).leads fun _ _ => collect_reporting checks e
  have hempty : s.Informed {} :=
    ⟨fun key file hfile => by simp at hfile, fun key analysis hanalysis => by simp at hanalysis⟩
  refine (hrun {} hempty).mono fun result h reach hreach => ?_
  obtain ⟨hfair, hcovered⟩ := h.2 reach hreach
  exact reportsSchemes_of_covered hfair hcovered

/-- A file that includes modules by the scheme, and a list with some of them. -/
def schemed : Session Id where
  loader := .ofTexts [([.root, .name "a.js"], "a"), ([.root, .name "b.js"], "b")]
  extractor := .ofTexts [("a", .specifiers ["./b.js", "node:fs/promises", "node:left-pad/lib",
    "node:@s/kit", "node:own", "node:axios"])]
  options := { supported := ["axios", "node:own"] }
  workspace := none

def schemedReach : Reach where
  entrypoint := ⟨⟨"/a.js"⟩, "a"⟩
  files := [⟨⟨"/b.js"⟩, "b"⟩]
  unsupported := [⟨⟨"/a.js"⟩, ["node:left-pad/lib", "node:@s/kit"]⟩]

theorem schemed_collectPlain : schemed.collectPlain ⟨"/x/../a.js"⟩ = .ok schemedReach := by
  decide +kernel

theorem extractor_schemed {file : SourceFile} (h : file.Alike schemedReach.entrypoint) :
    schemed.extractor file = .ok (.specifiers ["./b.js", "node:fs/promises", "node:left-pad/lib",
      "node:@s/kit", "node:own", "node:axios"]) := by
  have hkind : file.kind? = some .plain := by
    rw [kind?_congr h.path]
    decide
  show (Extractor.ofTexts _).find file = _
  simp [Extractor.ofTexts, hkind, h.contents, schemedReach]

theorem collect_schemes_sample :
    schemed.options.checksModules = true ∧
      (Specifier.NamesPackage "left-pad" ∧ Specifier.NamesPackage "@s/kit" ∧
        Specifier.packageName (Specifier.scheme ++ "left-pad" ++ "/lib") = "left-pad" ∧
        Specifier.packageName (Specifier.scheme ++ "@s/kit" ++ "") = "@s/kit") ∧
      ∃ reach, ((do
          schemed.performAll [.resolve ⟨"/gone.js"⟩, .collect ⟨"/b.js"⟩]
          schemed.collect ⟨"/x/../a.js"⟩ : StateT Memory Id _).run {}).run.1 = .ok reach ∧
        reach.Alike schemedReach ∧
        (reach.Reports reach.entrypoint "node:left-pad/lib" ∧
          reach.Reports reach.entrypoint "node:@s/kit") ∧
        ¬ reach.Reports reach.entrypoint "node:fs/promises" ∧
        ¬ reach.Reports reach.entrypoint "node:own" ∧
        ¬ reach.Reports reach.entrypoint "node:axios" := by
  have hpad : Specifier.NamesPackage "left-pad" := ⟨by decide, by decide⟩
  have hkit : Specifier.NamesPackage "@s/kit" := ⟨by decide, by decide⟩
  obtain ⟨-, hnames, hreports⟩ := collect_schemes schemed
    [.resolve ⟨"/gone.js"⟩, .collect ⟨"/b.js"⟩] ⟨"/x/../a.js"⟩
  obtain ⟨reach, hreach, halike⟩ := exists_collect_alike (Loader.ofTexts_fixed _)
    [.resolve ⟨"/gone.js"⟩, .collect ⟨"/b.js"⟩] schemed_collectPlain
  have hiff := always_id.1 (hreports rfl) reach hreach _ List.mem_cons_self _
    (extractor_schemed halike.entrypoint)
  refine ⟨rfl, ⟨hpad, hkit, (hnames "left-pad" "/lib" hpad (.inr ⟨"lib", rfl⟩)).2,
    (hnames "@s/kit" "" hkit (.inl rfl)).2⟩, reach, hreach, halike, ⟨?_, ?_⟩, ?_, ?_, ?_⟩
  · exact (hiff _ (by simp) (by decide)).2 (by decide)
  · exact (hiff _ (by simp) (by decide)).2 (by decide)
  · exact fun h => absurd ((hiff _ (by simp) (by decide)).1 h) (by decide)
  · exact fun h => absurd ((hiff _ (by simp) (by decide)).1 h) (by decide)
  · exact fun h => absurd ((hiff _ (by simp) (by decide)).1 h) (by decide)

/-- A module that a list has without the scheme is supported behind the scheme, which names only
what ships with the runtime. -/
theorem supports_behind_scheme :
    ¬ ∀ listed specifier, Specifier.hasScheme specifier = true →
      (Policy.supports listed specifier = true ↔
        Specifier.packageName specifier ∈ Policy.builtins ∨ specifier ∈ listed) := by
  intro h
  exact absurd ((h ["axios"] "node:axios" (by decide)).1 (by decide)) (by decide)

end Session

end ModuleTrace
