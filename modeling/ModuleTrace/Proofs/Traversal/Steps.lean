import ModuleTrace.Proofs.Traversal.Plain

/-!
# Steps of a traversal

What one step adds to a frontier when no limit is set: the paths that are met for the first time
are loaded and queued, or reported, in their order. A property that every step keeps holds when
nothing waits any longer, and then every file found has been visited.
-/

namespace ModuleTrace

/-! ## Paths met for the first time -/

def firstMet (visited : List (List Path.Part)) : List Path → List Path
  | [] => []
  | path :: rest =>
      if visited.contains path.parts then firstMet visited rest
      else path :: firstMet (path.parts :: visited) rest

theorem firstMet_cons_of_mem {visited : List (List Path.Part)} {path : Path}
    (h : path.parts ∈ visited) (rest : List Path) :
    firstMet visited (path :: rest) = firstMet visited rest := by
  simp [firstMet, h]

theorem firstMet_cons_of_notMem {visited : List (List Path.Part)} {path : Path}
    (h : path.parts ∉ visited) (rest : List Path) :
    firstMet visited (path :: rest) = path :: firstMet (path.parts :: visited) rest := by
  simp [firstMet, h]

theorem firstMet_cons (visited : List (List Path.Part)) (path : Path) (rest : List Path) :
    firstMet visited (path :: rest) = firstMet visited [path]
      ++ firstMet (((firstMet visited [path]).map Path.parts).reverse ++ visited) rest := by
  by_cases hpath : path.parts ∈ visited
  · rw [firstMet_cons_of_mem hpath, firstMet_cons_of_mem hpath]
    simp [firstMet]
  · rw [firstMet_cons_of_notMem hpath, firstMet_cons_of_notMem hpath]
    simp [firstMet]

theorem notMem_of_mem_firstMet {visited : List (List Path.Part)} {paths : List Path} {p : Path}
    (h : p ∈ firstMet visited paths) : p.parts ∉ visited := by
  induction paths generalizing visited with
  | nil => simp [firstMet] at h
  | cons path rest ih =>
      by_cases hpath : path.parts ∈ visited
      · rw [firstMet_cons_of_mem hpath] at h
        exact ih h
      · rw [firstMet_cons_of_notMem hpath] at h
        rcases List.mem_cons.1 h with rfl | h
        · exact hpath
        · have := ih h
          simp only [List.mem_cons, not_or] at this
          exact this.2

theorem mem_of_mem_firstMet {visited : List (List Path.Part)} {paths : List Path} {p : Path}
    (h : p ∈ firstMet visited paths) : p ∈ paths := by
  induction paths generalizing visited with
  | nil => simp [firstMet] at h
  | cons path rest ih =>
      by_cases hpath : path.parts ∈ visited
      · rw [firstMet_cons_of_mem hpath] at h
        exact List.mem_cons_of_mem _ (ih h)
      · rw [firstMet_cons_of_notMem hpath] at h
        rcases List.mem_cons.1 h with rfl | h
        · exact List.mem_cons_self
        · exact List.mem_cons_of_mem _ (ih h)

theorem nodup_firstMet (visited : List (List Path.Part)) (paths : List Path) :
    ((firstMet visited paths).map Path.parts).Nodup := by
  induction paths generalizing visited with
  | nil => simp [firstMet]
  | cons path rest ih =>
      by_cases hpath : path.parts ∈ visited
      · rw [firstMet_cons_of_mem hpath]
        exact ih visited
      · rw [firstMet_cons_of_notMem hpath, List.map_cons, List.nodup_cons]
        refine ⟨fun hmem => ?_, ih _⟩
        obtain ⟨q, hq, hparts⟩ := List.mem_map.1 hmem
        exact notMem_of_mem_firstMet hq (by simp [hparts])

/-- What is visited afterwards. -/
theorem mem_firstMet_or_visited (visited : List (List Path.Part)) (paths : List Path)
    (key : List Path.Part) :
    key ∈ (firstMet visited paths).map Path.parts ∨ key ∈ visited ↔
      key ∈ paths.map Path.parts ∨ key ∈ visited := by
  induction paths generalizing visited with
  | nil => simp [firstMet]
  | cons path rest ih =>
      by_cases hpath : path.parts ∈ visited
      · rw [firstMet_cons_of_mem hpath, ih, List.map_cons, List.mem_cons]
        constructor
        · rintro (h | h)
          · exact .inl (.inr h)
          · exact .inr h
        · rintro ((rfl | h) | h)
          · exact .inr hpath
          · exact .inl h
          · exact .inr h
      · have hrest := ih (path.parts :: visited)
        rw [List.mem_cons] at hrest
        rw [firstMet_cons_of_notMem hpath, List.map_cons, List.map_cons, List.mem_cons,
          List.mem_cons]
        tauto

namespace Session

variable (s : Session Id)

def loaded (paths : List Path) : List SourceFile :=
  paths.filterMap fun path => (s.loader.read path).run.toOption.map fun contents =>
    ⟨path, contents⟩

def unread (paths : List Path) : List FileFailure :=
  paths.filterMap fun path =>
    match (s.loader.read path).run with
    | .ok _ => none
    | .error error => some ⟨path, "cannot read file: " ++ error.message⟩

def extend (frontier : Frontier) (new : List Path) : Frontier :=
  { reach := { frontier.reach with
      files := frontier.reach.files ++ s.loaded new
      failures := frontier.reach.failures ++ s.unread new }
    visited := (new.map Path.parts).reverse ++ frontier.visited
    queue := frontier.queue ++ s.loaded new }

theorem extend_nil (frontier : Frontier) : s.extend frontier [] = frontier := by
  simp [extend, loaded, unread]

theorem extend_extend (frontier : Frontier) (new more : List Path) :
    s.extend (s.extend frontier new) more = s.extend frontier (new ++ more) := by
  simp [extend, loaded, unread, List.append_assoc]

variable {s} (unlimited : s.options.fileLimit = none)

include unlimited

theorem meetPlain_eq (frontier : Frontier) (path : Path) :
    s.meetPlain frontier path = .ok (s.extend frontier (firstMet frontier.visited [path])) := by
  by_cases hpath : path.parts ∈ frontier.visited
  · rw [firstMet_cons_of_mem hpath, firstMet, extend_nil]
    simp [meetPlain, hpath]
  · rw [firstMet_cons_of_notMem hpath, firstMet]
    cases hread : (s.loader.read path).run with
    | ok contents =>
        simp [meetPlain, hpath, unlimited, hread, extend, loaded, unread, Except.toOption]
    | error error =>
        simp [meetPlain, hpath, unlimited, hread, extend, loaded, unread, Except.toOption,
          Reach.addFailure]

theorem meetAllPlain_eq (frontier : Frontier) (paths : List Path) :
    paths.foldlM s.meetPlain frontier
      = .ok (s.extend frontier (firstMet frontier.visited paths)) := by
  induction paths generalizing frontier with
  | nil => simp [firstMet, extend_nil, pure, Except.pure]
  | cons path rest ih =>
      rw [List.foldlM_cons, meetPlain_eq unlimited]
      show List.foldlM s.meetPlain _ rest = _
      rw [ih, extend_extend, firstMet_cons _ path rest]
      rfl

omit unlimited

/-! ## What is learned from a file -/

variable (s)

def targets (file : SourceFile) : List Path :=
  match s.analysisOf file with
  | .ok ⟨_, dependencies, none⟩ => dependencies.locals.map LocalDependency.path
  | _ => []

def lacks (file : SourceFile) : List Path :=
  match s.analysisOf file with
  | .ok ⟨_, dependencies, none⟩ => dependencies.missing.map MissingDependency.attempted
  | _ => []

def externals (file : SourceFile) : List String :=
  match s.analysisOf file with
  | .ok ⟨_, dependencies, none⟩ => dependencies.external
  | _ => []

def syntaxError? (file : SourceFile) : Option String :=
  match s.analysisOf file with
  | .ok analysis => analysis.failure
  | .error _ => none

def rejected (file : SourceFile) : List UnsupportedModules :=
  let names := Policy.unsupported s.options.supported (s.externals file)
  if s.options.checksModules && !names.isEmpty then [⟨file.path, names⟩] else []

theorem mem_targets_iff {file : SourceFile} {path : Path} :
    path ∈ s.targets file ↔ ∃ analysis, s.analysisOf file = .ok analysis ∧
      analysis.failure = none ∧ ∃ d ∈ analysis.dependencies.locals, d.path = path := by
  unfold targets
  split
  · rename_i specifiers dependencies hanalysis
    simp [hanalysis]
  · rename_i hnone
    refine ⟨fun h => absurd h List.not_mem_nil, ?_⟩
    rintro ⟨⟨specifiers, dependencies, failure⟩, hanalysis, rfl, _⟩
    exact absurd hanalysis (hnone specifiers dependencies)

structure Visits (file : SourceFile) (a b : Frontier) : Prop where
  entrypoint : b.reach.entrypoint = a.reach.entrypoint
  files : b.reach.files = a.reach.files ++ s.loaded (firstMet a.visited (s.targets file))
  queue : b.queue = a.queue ++ s.loaded (firstMet a.visited (s.targets file))
  visited : b.visited =
    ((firstMet a.visited (s.targets file)).map Path.parts).reverse ++ a.visited
  missing : b.reach.missing =
    ((s.lacks file).foldl Reach.addMissing a.reach).missing
  unsupported : b.reach.unsupported = a.reach.unsupported ++ s.rejected file
  failures : b.reach.failures = a.reach.failures
    ++ (s.syntaxError? file).toList.map (⟨file.path, ·⟩)
    ++ s.unread (firstMet a.visited (s.targets file))

variable {s}

theorem foldl_addMissing_eq (paths : List Path) (reach : Reach) :
    paths.foldl Reach.addMissing reach
      = { reach with missing := (paths.foldl Reach.addMissing reach).missing } := by
  induction paths generalizing reach with
  | nil => rfl
  | cons path rest ih =>
      rw [List.foldl_cons, ih]
      unfold Reach.addMissing
      split <;> rfl

theorem noteProblems_eq {file : SourceFile} {specifiers : List String}
    {dependencies : Dependencies}
    (h : s.analysisOf file = .ok ⟨specifiers, dependencies, none⟩) (reach : Reach) :
    s.noteProblems file ⟨specifiers, dependencies, none⟩ reach = { reach with
      missing := ((s.lacks file).foldl Reach.addMissing reach).missing
      unsupported := reach.unsupported ++ s.rejected file } := by
  have hlacks : dependencies.missing.foldl
      (fun reach dependency => reach.addMissing dependency.attempted) reach
      = (s.lacks file).foldl Reach.addMissing reach := by
    rw [lacks, h]
    exact List.foldl_map.symm
  have hexternals : s.externals file = dependencies.external := by rw [externals, h]
  unfold noteProblems rejected
  simp only [hlacks, hexternals]
  rw [foldl_addMissing_eq]
  cases s.options.checksModules with
  | false => simp
  | true =>
      cases hnames : (Policy.unsupported s.options.supported dependencies.external).isEmpty <;>
        simp [Reach.addUnsupported, hnames]

include unlimited

theorem visitPlain_spec {file : SourceFile} {a b : Frontier} (h : s.visitPlain file a = .ok b) :
    s.Visits file a b := by
  unfold visitPlain at h
  cases hanalysis : s.analysisOf file with
  | error error => simp [hanalysis] at h
  | ok analysis =>
      obtain ⟨specifiers, dependencies, failure⟩ := analysis
      simp only [hanalysis] at h
      cases failure with
      | some message =>
          cases h
          have htargets : s.targets file = [] := by rw [targets, hanalysis]
          have hlacks : s.lacks file = [] := by rw [lacks, hanalysis]
          have hexternals : s.externals file = [] := by rw [externals, hanalysis]
          have herror : s.syntaxError? file = some message := by rw [syntaxError?, hanalysis]
          refine ⟨rfl, ?_, ?_, ?_, ?_, ?_, ?_⟩
          · simp [Reach.addFailure, htargets, firstMet, loaded]
          · simp [htargets, firstMet, loaded]
          · simp [htargets, firstMet]
          · simp [Reach.addFailure, hlacks]
          · simp [Reach.addFailure, rejected, hexternals, Policy.unsupported]
          · simp [Reach.addFailure, htargets, firstMet, unread, herror]
      | none =>
          have htargets : dependencies.locals.map LocalDependency.path = s.targets file := by
            rw [targets, hanalysis]
          have herror : s.syntaxError? file = none := by rw [syntaxError?, hanalysis]
          simp only [meetAllPlain_eq unlimited, noteProblems_eq hanalysis, htargets] at h
          cases h
          refine ⟨rfl, rfl, rfl, rfl, rfl, rfl, ?_⟩
          simp [extend, herror]

omit unlimited

/-! ## Whole runs -/

/-- What every visit keeps holds when nothing waits any longer. -/
theorem traversePlain_rule {P : List SourceFile → Frontier → Prop}
    (hstep : ∀ done file queue a b, a.queue = file :: queue → P done a →
      s.visitPlain file { a with queue } = .ok b → P (done ++ [file]) b)
    {fuel : Nat} {done : List SourceFile} {a b : Frontier} (hP : P done a)
    (h : s.traversePlain fuel a = .ok b) : ∃ all, P all b ∧ b.queue = [] := by
  induction fuel generalizing done a with
  | zero =>
      unfold traversePlain at h
      split at h
      · rename_i hqueue
        cases h
        exact ⟨done, hP, hqueue⟩
      · cases h
  | succ fuel ih =>
      unfold traversePlain at h
      split at h
      · rename_i hqueue
        cases h
        exact ⟨done, hP, hqueue⟩
      · rename_i file queue hqueue
        cases hvisit : s.visitPlain file { a with queue } with
        | error error =>
            rw [hvisit] at h
            cases h
        | ok next =>
            rw [hvisit] at h
            exact ih (hstep done file queue a next hqueue hP hvisit) h

/-- A run that ends in an error ends at a file whose visit gives it, or when the rounds are used
up, and what every visit keeps holds there. -/
theorem traversePlain_error_rule {P : List SourceFile → Frontier → Prop}
    (hstep : ∀ done file queue a b, a.queue = file :: queue → P done a →
      s.visitPlain file { a with queue } = .ok b → P (done ++ [file]) b)
    {fuel : Nat} {done : List SourceFile} {a : Frontier} {error : ResolveError} (hP : P done a)
    (h : s.traversePlain fuel a = .error error) :
    ∃ all b file queue, P all b ∧ b.queue = file :: queue ∧
      (s.visitPlain file { b with queue } = .error error ∨ all.length = done.length + fuel) := by
  induction fuel generalizing done a with
  | zero =>
      unfold traversePlain at h
      split at h
      · cases h
      · rename_i file queue hqueue
        exact ⟨done, a, file, queue, hP, hqueue, .inr rfl⟩
  | succ fuel ih =>
      unfold traversePlain at h
      split at h
      · cases h
      · rename_i file queue hqueue
        cases hvisit : s.visitPlain file { a with queue } with
        | error other =>
            rw [hvisit] at h
            cases h
            exact ⟨done, a, file, queue, hP, hqueue, .inl hvisit⟩
        | ok next =>
            rw [hvisit] at h
            obtain ⟨all, b, last, rest, hall, hlast, hend⟩ :=
              ih (hstep done file queue a next hqueue hP hvisit) h
            refine ⟨all, b, last, rest, hall, hlast, hend.imp_right fun hlength => ?_⟩
            rw [hlength, List.length_append, List.length_singleton]
            omega

/-- What holds of an entrypoint and what every visit keeps. -/
theorem collectPlain_rule {P : SourceFile → List SourceFile → Frontier → Prop}
    (hstart : ∀ entry, s.Loads entry →
      P entry [] ⟨{ entrypoint := entry }, [entry.path.parts], [entry]⟩)
    (hstep : ∀ entry done file queue a b, a.queue = file :: queue → P entry done a →
      s.visitPlain file { a with queue } = .ok b → P entry (done ++ [file]) b)
    {entrypoint : Path} {reach : Reach} (h : s.collectPlain entrypoint = .ok reach) :
    ∃ entry all a, entry.path = entrypoint.normalize ∧ P entry all a ∧ a.queue = [] ∧
      a.reach = reach := by
  unfold collectPlain at h
  simp only at h
  cases hread : (s.loader.read entrypoint.normalize).run with
  | error error =>
      rw [hread] at h
      cases h
  | ok contents =>
      simp only [hread] at h
      let entry : SourceFile := ⟨entrypoint.normalize, contents⟩
      cases hrun : s.traversePlain (s.loader.extent + 1)
          ⟨{ entrypoint := entry }, [entry.path.parts], [entry]⟩ with
      | error error =>
          rw [hrun] at h
          cases h
      | ok a =>
          rw [hrun] at h
          cases h
          obtain ⟨all, hall, hqueue⟩ :=
            traversePlain_rule (P := P entry) (hstep entry) (hstart entry hread) hrun
          exact ⟨entry, all, a, rfl, hall, hqueue, rfl⟩

end Session

end ModuleTrace
