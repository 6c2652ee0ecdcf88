import Mathlib.Data.Finset.Card
import ModuleTrace.Resolution.Loader

/-!
# Runs of a source cache

A cache serves one request after another while the world changes between them. What it answers
is tied to what was answered before: a file that was loaded once stays what it was, and the
loader is asked at most once whether a path is a file.
-/

namespace ModuleTrace

inductive Query where
  | read (path : Path)
  | isFile (path : Path)
  | isDirectory (path : Path)
  deriving DecidableEq, Repr

namespace Query

/-- Whether a loader is asked if the path of some parts is a file. -/
def probes (key : List Path.Part) : Query → Bool
  | .isFile path => path.parts = key
  | _ => false

end Query

def Loader.recorded (loader : Loader Id) : Loader (StateM (List Query)) where
  read path := do
    modify (· ++ [.read path])
    return (loader.read path).run
  isFile path := do
    modify (· ++ [.isFile path])
    return (loader.isFile path).run
  isDirectory path := do
    modify (· ++ [.isDirectory path])
    return (loader.isDirectory path).run
  extent := loader.extent

@[simp] theorem Loader.run_recorded_read (loader : Loader Id) (path : Path)
    (queries : List Query) : (loader.recorded.read path).run queries
      = pure ((loader.read path).run, queries ++ [.read path]) := rfl

@[simp] theorem Loader.run_recorded_isFile (loader : Loader Id) (path : Path)
    (queries : List Query) : (loader.recorded.isFile path).run queries
      = pure ((loader.isFile path).run, queries ++ [.isFile path]) := rfl

namespace SourceCache

inductive Operation where
  | load (path : Path)
  | readFresh (path : Path)
  | isFile (path : Path)
  | isDirectory (path : Path)
  deriving DecidableEq, Repr

/-- An operation, and the world that it meets. -/
structure Request where
  world : Loader Id
  operation : Operation

/-- An operation with its answer. -/
inductive Outcome where
  | loaded (path : Path) (answer : Except ReadError SourceFile)
  | contents (path : Path) (answer : Except ReadError String)
  | isFile (path : Path) (answer : Bool)
  | isDirectory (path : Path) (answer : Bool)
  deriving DecidableEq

/-- What a request came to: its outcome and the calls it made. -/
structure Event where
  outcome : Outcome
  queries : List Query
  deriving DecidableEq

def Operation.perform {m : Type → Type} [Monad m] (loader : Loader m) :
    Operation → StateT SourceCache m Outcome
  | .load path => return .loaded path (← SourceCache.load loader path)
  | .readFresh path => return .contents path (← SourceCache.readFresh loader path)
  | .isFile path => return .isFile path (← SourceCache.isFile loader path)
  | .isDirectory path => return .isDirectory path (← SourceCache.isDirectory loader path)

def Request.serve (request : Request) (cache : SourceCache) : Event × SourceCache :=
  let ((outcome, cache), queries) :=
    (((request.operation.perform request.world.recorded).run cache).run []).run
  (⟨outcome, queries⟩, cache)

def serveAll : List Request → SourceCache → List Event × SourceCache
  | [], cache => ([], cache)
  | request :: rest, cache =>
      let (event, cache) := request.serve cache
      let (events, cache) := serveAll rest cache
      (event :: events, cache)

/-! ## One request -/

inductive Serves (cache : SourceCache) : Event → SourceCache → Prop where
  | known {path : Path} {file : SourceFile} (held : cache.files[path.parts]? = some file) :
      Serves cache ⟨.loaded path (.ok file), []⟩ cache
  | load {path : Path} (contents : String) (unknown : cache.files[path.parts]? = none) :
      Serves cache ⟨.loaded path (.ok ⟨path, contents⟩), [.read path]⟩
        { files := cache.files.insert path.parts ⟨path, contents⟩
          existence := cache.existence.insert path.parts true
          readCount := cache.readCount + 1
          journal := .read path :: cache.journal }
  | fail {path : Path} (error : ReadError) (unknown : cache.files[path.parts]? = none) :
      Serves cache ⟨.loaded path (.error error), [.read path]⟩
        { cache with journal := .read path :: cache.journal }
  | read (path : Path) (answer : Except ReadError String) :
      Serves cache ⟨.contents path answer, [.read path]⟩
        { cache with journal := .read path :: cache.journal }
  | answer {path : Path} {answer : Bool} (known : cache.existence[path.parts]? = some answer) :
      Serves cache ⟨.isFile path answer, []⟩ cache
  | probe {path : Path} (answer : Bool) (unknown : cache.existence[path.parts]? = none) :
      Serves cache ⟨.isFile path answer, [.isFile path]⟩
        { cache with
          existence := cache.existence.insert path.parts answer
          journal := .probe path :: cache.journal }
  | directory (path : Path) (answer : Bool) :
      Serves cache ⟨.isDirectory path answer, [.isDirectory path]⟩ cache

theorem serve_load_known {cache : SourceCache} {path : Path} {file : SourceFile}
    (h : cache.files[path.parts]? = some file) (world : Loader Id) :
    Request.serve ⟨world, .load path⟩ cache = (⟨.loaded path (.ok file), []⟩, cache) := by
  simp [Request.serve, Operation.perform, load, h]

theorem serve_serves (request : Request) (cache : SourceCache) :
    Serves cache (request.serve cache).1 (request.serve cache).2 := by
  obtain ⟨world, operation⟩ := request
  cases operation with
  | load path =>
      cases hknown : cache.files[path.parts]? with
      | some file =>
          rw [serve_load_known hknown]
          exact .known hknown
      | none =>
          cases hread : (world.read path).run with
          | ok contents =>
              have hserve : Request.serve ⟨world, .load path⟩ cache
                  = (⟨.loaded path (.ok ⟨path, contents⟩), [.read path]⟩,
                    { files := cache.files.insert path.parts ⟨path, contents⟩
                      existence := cache.existence.insert path.parts true
                      readCount := cache.readCount + 1
                      journal := .read path :: cache.journal }) := by
                simp [Request.serve, Operation.perform, SourceCache.load, SourceCache.readFresh,
                  hknown, hread]
              rw [hserve]
              exact .load contents hknown
          | error error =>
              have hserve : Request.serve ⟨world, .load path⟩ cache
                  = (⟨.loaded path (.error error), [.read path]⟩,
                    { cache with journal := .read path :: cache.journal }) := by
                simp [Request.serve, Operation.perform, SourceCache.load, SourceCache.readFresh,
                  hknown, hread]
              rw [hserve]
              exact .fail error hknown
  | readFresh path => exact .read path (world.read path).run
  | isFile path =>
      cases hknown : cache.existence[path.parts]? with
      | some answer =>
          have hserve : Request.serve ⟨world, .isFile path⟩ cache
              = (⟨.isFile path answer, []⟩, cache) := by
            simp [Request.serve, Operation.perform, SourceCache.isFile, hknown]
          rw [hserve]
          exact .answer hknown
      | none =>
          have hserve : Request.serve ⟨world, .isFile path⟩ cache
              = (⟨.isFile path (world.isFile path).run, [.isFile path]⟩,
                { cache with
                  existence := cache.existence.insert path.parts (world.isFile path).run
                  journal := .probe path :: cache.journal }) := by
            simp [Request.serve, Operation.perform, SourceCache.isFile, hknown]
          rw [hserve]
          exact .probe _ hknown
  | isDirectory path => exact .directory path (world.isDirectory path).run

/-! ## What the cache knows of the past -/

namespace Event

/-- The request was for the path of some parts and was given a file. -/
def Loads (key : List Path.Part) (file : SourceFile) (event : Event) : Prop :=
  ∃ path : Path, path.parts = key ∧ event.outcome = .loaded path (.ok file)

def loadedKey? (event : Event) : Option (List Path.Part) :=
  match event.outcome with
  | .loaded path (.ok _) => some path.parts
  | _ => none

theorem loadedKey?_eq_some_iff {event : Event} {key : List Path.Part} :
    event.loadedKey? = some key ↔ ∃ file, event.Loads key file := by
  obtain ⟨outcome, queries⟩ := event
  unfold loadedKey? Loads
  cases outcome with
  | loaded path answer => cases answer <;> simp
  | contents path answer => simp
  | isFile path answer => simp
  | isDirectory path answer => simp

end Event

/-- The paths of which files were given. -/
def loadedKeys (history : List Event) : Finset (List Path.Part) :=
  (history.filterMap Event.loadedKey?).toFinset

theorem mem_loadedKeys {history : List Event} {key : List Path.Part} :
    key ∈ loadedKeys history ↔ ∃ file, ∃ event ∈ history, event.Loads key file := by
  simp only [loadedKeys, List.mem_toFinset, List.mem_filterMap, Event.loadedKey?_eq_some_iff]
  constructor
  · rintro ⟨event, hevent, file, hloads⟩
    exact ⟨file, event, hevent, hloads⟩
  · rintro ⟨file, event, hevent, hloads⟩
    exact ⟨event, hevent, file, hloads⟩

def probeCount (key : List Path.Part) (history : List Event) : Nat :=
  (history.flatMap Event.queries).countP (Query.probes key)

/-- The maps and the counter of a cache, told from the events that led to it. -/
structure Accounts (history : List Event) (cache : SourceCache) : Prop where
  files : ∀ key file, cache.files[key]? = some file ↔ ∃ event ∈ history, event.Loads key file
  count : cache.readCount = (loadedKeys history).card
  probed : ∀ key, key ∉ cache.existence → probeCount key history = 0
  once : ∀ key, probeCount key history ≤ 1

theorem accounts_empty : Accounts [] {} := by
  constructor <;> simp [loadedKeys, probeCount]

section

variable {history : List Event} {cache next : SourceCache} {event : Event}

theorem Accounts.mem_loadedKeys (h : Accounts history cache) (key : List Path.Part) :
    key ∈ loadedKeys history ↔ ∃ file, cache.files[key]? = some file := by
  rw [SourceCache.mem_loadedKeys]
  exact exists_congr fun file => (h.files key file).symm

theorem loadedKeys_concat (history : List Event) (event : Event) :
    loadedKeys (history ++ [event]) = loadedKeys history ∪ event.loadedKey?.toList.toFinset := by
  unfold loadedKeys
  rw [List.filterMap_append, List.toFinset_append]
  cases h : event.loadedKey? <;> simp [h]

theorem probeCount_concat (key : List Path.Part) (history : List Event) (event : Event) :
    probeCount key (history ++ [event])
      = probeCount key history + event.queries.countP (Query.probes key) := by
  simp [probeCount]

/-- Only a file that is given for the first time is counted. -/
theorem Accounts.count_step (h : Accounts history cache) (hserves : Serves cache event next) :
    next.readCount = (loadedKeys (history ++ [event])).card := by
  rw [loadedKeys_concat]
  cases hserves with
  | known held =>
      have hmem := (h.mem_loadedKeys _).2 ⟨_, held⟩
      simp [Event.loadedKey?, hmem, h.count, Finset.union_singleton]
  | @load path contents unknown =>
      have hnotMem : path.parts ∉ loadedKeys history := by
        rw [h.mem_loadedKeys, unknown]
        simp
      simp [Event.loadedKey?, hnotMem, h.count, Finset.union_singleton]
  | _ => simp [Event.loadedKey?, h.count]

theorem exists_loads_concat {key : List Path.Part} {file : SourceFile} :
    (∃ other ∈ history ++ [event], other.Loads key file)
      ↔ (∃ other ∈ history, other.Loads key file) ∨ event.Loads key file := by
  simp only [List.mem_append, List.mem_singleton]
  constructor
  · rintro ⟨other, hother | rfl, hloads⟩
    · exact .inl ⟨other, hother, hloads⟩
    · exact .inr hloads
  · rintro (⟨other, hother, hloads⟩ | hloads)
    · exact ⟨other, .inl hother, hloads⟩
    · exact ⟨event, .inr rfl, hloads⟩

theorem Accounts.files_step (h : Accounts history cache) (hserves : Serves cache event next)
    (key : List Path.Part) (file : SourceFile) :
    next.files[key]? = some file ↔ ∃ other ∈ history ++ [event], other.Loads key file := by
  rw [exists_loads_concat, ← h.files]
  cases hserves with
  | @known path found held =>
      have hagrees : Event.Loads key file ⟨.loaded path (.ok found), []⟩ →
          cache.files[key]? = some file := by
        rintro ⟨other, rfl, heq⟩
        cases heq
        exact held
      tauto
  | @load path contents unknown =>
      rw [Std.HashMap.getElem?_insert]
      by_cases hkey : path.parts = key
      · subst hkey
        simp [Event.Loads, unknown]
      · simp [Event.Loads, hkey]
  | _ => simp [Event.Loads]

/-- A loader is asked about a path only while there is no answer for it, and then there is one. -/
theorem Accounts.probes_step (h : Accounts history cache) (hserves : Serves cache event next)
    (key : List Path.Part) :
    (key ∉ next.existence → probeCount key (history ++ [event]) = 0) ∧
      probeCount key (history ++ [event]) ≤ 1 := by
  rw [probeCount_concat]
  have honce := h.once key
  have hprobed := h.probed key
  cases hserves with
  | @load path contents unknown =>
      by_cases hkey : path.parts = key
      · simp [Query.probes, hkey, honce]
      · simpa [Query.probes, hkey] using ⟨hprobed, honce⟩
  | @probe path answer unknown =>
      by_cases hkey : path.parts = key
      · subst hkey
        have hzero := hprobed (by simpa using unknown)
        simp [Query.probes, hzero]
      · simpa [Query.probes, hkey] using ⟨hprobed, honce⟩
  | _ => simpa [Query.probes] using ⟨hprobed, honce⟩

theorem Accounts.step (h : Accounts history cache) (hserves : Serves cache event next) :
    Accounts (history ++ [event]) next where
  files := h.files_step hserves
  count := h.count_step hserves
  probed key := (h.probes_step hserves key).1
  once key := (h.probes_step hserves key).2

/-- By induction on the requests, behind any history. -/
theorem Accounts.serveAll (h : Accounts history cache) (requests : List Request) :
    Accounts (history ++ (serveAll requests cache).1) (serveAll requests cache).2 := by
  induction requests generalizing history cache with
  | nil => simpa [SourceCache.serveAll] using h
  | cons request rest ih =>
      have hnext := h.step (serve_serves request cache)
      have hrest := ih hnext
      rwa [List.append_assoc] at hrest

/-- An answer changes in one way, when the file is loaded. -/
theorem existence_step (hserves : Serves cache event next) {key : List Path.Part} {answer : Bool}
    (hknown : cache.existence[key]? = some answer) :
    next.existence[key]? = some answer ∨
      next.existence[key]? = some true ∧ ∃ file, event.Loads key file := by
  cases hserves with
  | @load path contents unknown =>
      rw [Std.HashMap.getElem?_insert]
      by_cases hkey : path.parts = key
      · right
        exact ⟨by simp [hkey], _, path, hkey, rfl⟩
      · left
        simpa [hkey] using hknown
  | @probe path other unknown =>
      left
      have hkey : path.parts ≠ key := by
        rintro rfl
        rw [hknown] at unknown
        cases unknown
      rw [Std.HashMap.getElem?_insert]
      simpa [hkey] using hknown
  | _ => exact .inl hknown

theorem existence_serveAll (requests : List Request) (cache : SourceCache) {key : List Path.Part}
    {answer : Bool} (hknown : cache.existence[key]? = some answer) :
    ∃ later, (serveAll requests cache).2.existence[key]? = some later ∧
      (later = answer ∨ later = true ∧
        ∃ event ∈ (serveAll requests cache).1, ∃ file, event.Loads key file) := by
  induction requests generalizing cache answer with
  | nil => exact ⟨answer, hknown, .inl rfl⟩
  | cons request rest ih =>
      rcases existence_step (serve_serves request cache) hknown with hsame | ⟨htrue, file, hloads⟩
      · obtain ⟨later, hlater, hcases⟩ := ih _ hsame
        refine ⟨later, hlater, hcases.imp_right fun hloaded => ?_⟩
        obtain ⟨hlater, event, hevent, hloads⟩ := hloaded
        exact ⟨hlater, event, List.mem_cons_of_mem _ hevent, hloads⟩
      · obtain ⟨later, hlater, hcases⟩ := ih _ htrue
        have hlater_true : later = true := by
          rcases hcases with hsame | hloaded
          · exact hsame
          · exact hloaded.1
        exact ⟨later, hlater, .inr ⟨hlater_true, _, List.mem_cons_self, file, hloads⟩⟩

theorem serveAll_append (first second : List Request) (cache : SourceCache) :
    serveAll (first ++ second) cache
      = ((serveAll first cache).1 ++ (serveAll second (serveAll first cache).2).1,
        (serveAll second (serveAll first cache).2).2) := by
  induction first generalizing cache with
  | nil => rfl
  | cons request rest ih => simp [serveAll, ih]

end

/-! ## Any run -/

def history (past : List Request) : List Event :=
  (serveAll past {}).1

def after (past : List Request) : SourceCache :=
  (serveAll past {}).2

def next (past : List Request) (request : Request) : Event :=
  (request.serve (after past)).1

/-- How the answers of a cache go with those before them, however the world changes. -/
structure Consistent (past : List Request) : Prop where
  /-- A file that was given once is given again for every spelling of its path, and the loader is
  not called. -/
  reload : ∀ event ∈ history past, ∀ key file, event.Loads key file →
    ∀ (path : Path) (world : Loader Id), path.parts = key →
      next past ⟨world, .load path⟩ = ⟨.loaded path (.ok file), []⟩
  failed : ∀ request path error, (next past request).outcome = .loaded path (.error error) →
    (after (past ++ [request])).files = (after past).files ∧
      (after (past ++ [request])).existence = (after past).existence ∧
      (after (past ++ [request])).readCount = (after past).readCount
  count : (after past).readCount = (loadedKeys (history past)).card
  /-- Whether a path is a file is answered as before, unless the file was loaded in between. -/
  recheck : ∀ (between : List Request) (p q : Path) (world other : Loader Id) (answer later : Bool),
    p.parts = q.parts → (next past ⟨world, .isFile p⟩).outcome = .isFile p answer →
      (next (past ++ ⟨world, .isFile p⟩ :: between) ⟨other, .isFile q⟩).outcome
          = .isFile q later →
      later = answer ∨ answer = false ∧ later = true ∧
        ∃ event ∈ (serveAll between (after (past ++ [⟨world, .isFile p⟩]))).1,
          ∃ file, event.Loads p.parts file
  probes : ∀ key, probeCount key (history past) ≤ 1

theorem accounts_after (past : List Request) : Accounts (history past) (after past) :=
  accounts_empty.serveAll past

theorem after_append (past later : List Request) :
    after (past ++ later) = (serveAll later (after past)).2 := by
  unfold after
  rw [serveAll_append]

theorem Serves.failed {cache after : SourceCache} {event : Event} (h : Serves cache event after)
    {path : Path} {error : ReadError} (hfailed : event.outcome = .loaded path (.error error)) :
    after.files = cache.files ∧ after.existence = cache.existence ∧
      after.readCount = cache.readCount := by
  cases h with
  | fail error unknown => exact ⟨rfl, rfl, rfl⟩
  | _ => cases hfailed

/-- What is answered about a path is what is remembered of it then. -/
theorem Serves.existence {cache after : SourceCache} {event : Event} (h : Serves cache event after)
    {path : Path} {answer : Bool} (hanswer : event.outcome = .isFile path answer) :
    after.existence[path.parts]? = some answer ∧
      ∀ known, cache.existence[path.parts]? = some known → answer = known := by
  cases h with
  | answer known =>
      cases hanswer
      refine ⟨known, fun other hother => ?_⟩
      rw [known] at hother
      exact Option.some.inj hother
  | probe other unknown =>
      cases hanswer
      exact ⟨by simp, by simp [unknown]⟩
  | _ => cases hanswer

/-- However requests and changes of the world alternate, the answers go together. -/
theorem answers_consistent (past : List Request) : Consistent past := by
  have haccounts := accounts_after past
  constructor
  · intro event hevent key file hloads path world hpath
    have hknown := (haccounts.files key file).2 ⟨event, hevent, hloads⟩
    rw [← hpath] at hknown
    exact congrArg Prod.fst (serve_load_known hknown world)
  · intro request path error hfailed
    rw [after_append]
    exact (serve_serves request (after past)).failed hfailed
  · exact haccounts.count
  · intro between p q world other answer later hparts hanswer hlater
    rw [List.append_cons] at hlater
    generalize hfirst : past ++ [⟨world, .isFile p⟩] = first at hlater ⊢
    have hknown : (after first).existence[p.parts]? = some answer := by
      rw [← hfirst, after_append]
      exact ((serve_serves ⟨world, .isFile p⟩ (after past)).existence hanswer).1
    obtain ⟨known, hlast, hcases⟩ := existence_serveAll between (after first) hknown
    rw [← after_append, hparts] at hlast
    have hsame := ((serve_serves ⟨other, .isFile q⟩ _).existence hlater).2 known hlast
    rw [hsame]
    rcases hcases with hkept | ⟨htrue, hloaded⟩
    · exact .inl hkept
    · cases answer with
      | true => exact .inl htrue
      | false => exact .inr ⟨rfl, htrue, hloaded⟩
  · exact haccounts.once

end SourceCache

end ModuleTrace
