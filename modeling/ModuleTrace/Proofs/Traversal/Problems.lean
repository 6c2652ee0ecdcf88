import ModuleTrace.Proofs.Traversal.Progress
import ModuleTrace.Proofs.Traversal.Transparency

/-!
# Problems that are reported

A traversal reports what is wrong with the files that it reaches: every problem, each of them once,
and nothing else.
-/

namespace ModuleTrace

/-! ## Modules that are not supported -/

namespace Policy

/-- By induction on the list; what stands at its head is filtered out of the rest. -/
theorem pairwise_idxOf_eraseDups (xs : List String) (test : String → Bool) :
    (xs.filter test).eraseDups.Pairwise fun a b => xs.idxOf a < xs.idxOf b := by
  induction xs generalizing test with
  | nil => simp
  | cons x xs ih =>
      have hshift : ∀ (p : String → Bool), (∀ y, p y → y ≠ x) →
          (xs.filter p).eraseDups.Pairwise fun a b =>
            (x :: xs).idxOf a < (x :: xs).idxOf b := by
        intro p hp
        refine (ih p).imp_of_mem fun {a b} ha hb hlt => ?_
        have ha := hp a (List.mem_filter.1 (List.mem_eraseDups.1 ha)).2
        have hb := hp b (List.mem_filter.1 (List.mem_eraseDups.1 hb)).2
        rw [List.idxOf_cons_ne _ ha.symm, List.idxOf_cons_ne _ hb.symm]
        omega
      by_cases hx : test x
      · rw [List.filter_cons_of_pos hx, List.eraseDups_cons, List.filter_filter,
          List.pairwise_cons]
        refine ⟨fun b hb => ?_, hshift _ fun y hy => by simp at hy; exact hy.1⟩
        have hne := (List.mem_filter.1 (List.mem_eraseDups.1 hb)).2
        simp only [Bool.and_eq_true, Bool.not_eq_true', beq_eq_false_iff_ne] at hne
        rw [List.idxOf_cons_self, List.idxOf_cons_ne _ hne.1.symm]
        omega
      · rw [List.filter_cons_of_neg hx]
        exact hshift _ fun y hy heq => hx (heq ▸ hy)

variable (listed specifiers : List String)

theorem mem_unsupported_iff (name : String) : name ∈ unsupported listed specifiers ↔
    name ∈ specifiers ∧ supports listed name = false := by
  simp [unsupported, List.mem_eraseDups]

theorem unsupported_sorted :
    (unsupported listed specifiers).Pairwise fun a b => specifiers.idxOf a < specifiers.idxOf b :=
  pairwise_idxOf_eraseDups specifiers _

theorem unsupported_nodup : (unsupported listed specifiers).Nodup :=
  (unsupported_sorted listed specifiers).imp fun h heq => by simp [heq] at h

end Policy

/-! ## What is missing -/

theorem Reach.pairwise_addMissing {reach : Reach} (path : Path)
    (h : reach.missing.Pairwise fun p q => ¬ p.same q) :
    (reach.addMissing path).missing.Pairwise fun p q => ¬ p.same q := by
  unfold addMissing
  split
  · exact h
  · rename_i hany
    rw [List.pairwise_append]
    refine ⟨h, by simp, fun p hp q hq hsame => hany ?_⟩
    rw [List.mem_singleton.1 hq] at hsame
    refine List.any_eq_true.2 ⟨p, hp, ?_⟩
    rw [Path.same_iff] at hsame ⊢
    exact hsame.symm

theorem Reach.mem_addMissing_iff (reach : Reach) (path p : Path) :
    (∃ q ∈ (reach.addMissing path).missing, q.same p) ↔
      (∃ q ∈ reach.missing, q.same p) ∨ path.same p := by
  unfold addMissing
  split
  · rename_i hany
    obtain ⟨q, hq, hsame⟩ := List.any_eq_true.1 hany
    refine ⟨.inl, ?_⟩
    rintro (h | h)
    · exact h
    · rw [Path.same_iff] at h hsame
      exact ⟨q, hq, (Path.same_iff _ _).2 (hsame.symm.trans h)⟩
  · simp [or_and_right, exists_or]

theorem Reach.foldl_addMissing (paths : List Path) (reach : Reach)
    (h : reach.missing.Pairwise fun p q => ¬ p.same q) :
    (paths.foldl addMissing reach).missing.Pairwise (fun p q => ¬ p.same q) ∧
      ∀ p, (∃ q ∈ (paths.foldl addMissing reach).missing, q.same p) ↔
        (∃ q ∈ reach.missing, q.same p) ∨ ∃ q ∈ paths, q.same p := by
  induction paths generalizing reach with
  | nil => exact ⟨h, by simp⟩
  | cons path rest ih =>
      obtain ⟨hdistinct, hmem⟩ := ih _ (reach.pairwise_addMissing path h)
      refine ⟨hdistinct, fun p => ?_⟩
      rw [List.foldl_cons, hmem, Reach.mem_addMissing_iff]
      simp [or_assoc]

namespace Session

variable {s : Session Id}

/-! ## What cannot be read -/

def Unreadable (s : Session Id) (path : Path) (message : String) : Prop :=
  ∃ error, (s.loader.read path).run = .error error ∧
    message = "cannot read file: " ++ error.message

theorem Unreadable.congr (fixed : s.loader.Fixed) {p q : Path} (h : p.parts = q.parts)
    {message : String} (hp : s.Unreadable p message) : s.Unreadable q message := by
  obtain ⟨error, herror, hmessage⟩ := hp
  exact ⟨error, by rw [← fixed.read_congr h, herror], hmessage⟩

theorem Unreadable.not_loads {p : Path} {message : String} (h : s.Unreadable p message)
    (fixed : s.loader.Fixed) {file : SourceFile} (hfile : s.Loads file) :
    file.path.parts ≠ p.parts := by
  intro hparts
  obtain ⟨error, herror, -⟩ := h
  rw [Loads, fixed.read_congr hparts, herror] at hfile
  cases hfile

theorem mem_unread_iff {paths : List Path} {x : FileFailure} :
    x ∈ s.unread paths ↔ x.file ∈ paths ∧ s.Unreadable x.file x.message := by
  unfold unread Unreadable
  rw [List.mem_filterMap]
  constructor
  · rintro ⟨path, hpath, hx⟩
    cases hread : (s.loader.read path).run with
    | ok contents => simp [hread] at hx
    | error error =>
        simp only [hread, Option.some.injEq] at hx
        subst hx
        exact ⟨hpath, error, hread, rfl⟩
  · obtain ⟨path, message⟩ := x
    rintro ⟨hpath, error, hread, rfl⟩
    refine ⟨path, hpath, ?_⟩
    rw [hread]

theorem unread_files_sublist (paths : List Path) :
    ((s.unread paths).map FileFailure.file).Sublist paths := by
  induction paths with
  | nil => exact .slnil
  | cons path rest ih =>
      cases hread : (s.loader.read path).run with
      | ok contents =>
          have hcons : s.unread (path :: rest) = s.unread rest := by simp [unread, hread]
          rw [hcons]
          exact ih.cons path
      | error error =>
          have hcons : s.unread (path :: rest)
              = ⟨path, "cannot read file: " ++ error.message⟩ :: s.unread rest := by
            simp [unread, hread]
          rw [hcons]
          exact ih.cons_cons path

/-! ## The invariant -/

/-- What a frontier reports is what is wrong with the files taken apart. -/
structure Reported (s : Session Id) (done : List SourceFile) (a : Frontier) : Prop where
  missingDistinct : a.reach.missing.Pairwise fun p q => ¬ p.same q
  missing : ∀ p, (∃ q ∈ a.reach.missing, q.same p) ↔ ∃ f ∈ done, ∃ q ∈ s.lacks f, q.same p
  unsupported : a.reach.unsupported = done.flatMap s.rejected
  failuresDistinct : (a.reach.failures.map fun x => x.file.parts).Nodup
  failures : ∀ (p : Path) (message : String),
    (∃ x ∈ a.reach.failures, x.file.parts = p.parts ∧ x.message = message) ↔
      (∃ f ∈ done, f.path.parts = p.parts ∧ s.syntaxError? f = some message) ∨
        p.parts ∈ a.visited ∧ s.Unreadable p message

namespace Reported

theorem start (fixed : s.loader.Fixed) {entry : SourceFile} (h : s.Loads entry) :
    s.Reported [] ⟨{ entrypoint := entry }, [entry.path.parts], [entry]⟩ where
  missingDistinct := by simp
  missing := by simp
  unsupported := rfl
  failuresDistinct := by simp
  failures p message := by
    simp only [List.not_mem_nil, false_and, exists_false, false_or, false_iff, not_and,
      List.mem_singleton]
    exact fun hp hunreadable => hunreadable.not_loads fixed h hp.symm

variable {entry file : SourceFile} {done queue : List SourceFile} {a b : Frontier}

/-- Every report so far is about a path that was visited. -/
theorem visited_of_mem (h : s.Reported done a) (hspread : s.Spread entry done a)
    {x : FileFailure} (hx : x ∈ a.reach.failures) : x.file.parts ∈ a.visited := by
  rcases (h.failures x.file x.message).1 ⟨x, hx, rfl, rfl⟩ with ⟨f, hf, hparts, -⟩ | ⟨hmem, -⟩
  · rw [← hparts]
    exact hspread.met f (List.mem_append_left _ hf)
  · exact hmem

/-- A file that waits has no report yet. -/
theorem ne_of_mem (fixed : s.loader.Fixed) (h : s.Reported done a)
    (hspread : s.Spread entry done a) (hqueue : a.queue = file :: queue) {x : FileFailure}
    (hx : x ∈ a.reach.failures) : x.file.parts ≠ file.path.parts := by
  intro hparts
  rcases (h.failures x.file x.message).1 ⟨x, hx, rfl, rfl⟩ with ⟨f, hf, hfparts, -⟩ | ⟨-, hun⟩
  · have hdistinct := hspread.distinct
    rw [List.map_append, List.nodup_append] at hdistinct
    refine hdistinct.2.2 _ (List.mem_map_of_mem hf) file.path.parts ?_ (hfparts.trans hparts)
    simp [hqueue]
  · exact hun.not_loads fixed (hspread.loads file (by simp [hqueue])) hparts.symm

theorem exists_mem_unread_iff (fixed : s.loader.Fixed) (paths : List Path) (p : Path)
    (message : String) :
    (∃ x ∈ s.unread paths, x.file.parts = p.parts ∧ x.message = message) ↔
      p.parts ∈ paths.map Path.parts ∧ s.Unreadable p message := by
  rw [List.mem_map]
  constructor
  · rintro ⟨x, hx, hparts, rfl⟩
    obtain ⟨hpath, hunreadable⟩ := mem_unread_iff.1 hx
    exact ⟨⟨x.file, hpath, hparts⟩, hunreadable.congr fixed hparts⟩
  · rintro ⟨⟨q, hq, hparts⟩, hunreadable⟩
    exact ⟨⟨q, message⟩, mem_unread_iff.2 ⟨hq, hunreadable.congr fixed hparts.symm⟩, hparts, rfl⟩

theorem step_failuresDistinct (fixed : s.loader.Fixed) (hspread : s.Spread entry done a)
    (h : s.Reported done a) (hqueue : a.queue = file :: queue)
    (hvisits : s.Visits file { a with queue } b) :
    (b.reach.failures.map fun x => x.file.parts).Nodup := by
  have hfailures := hvisits.failures
  simp only at hfailures
  rw [hfailures, List.map_append, List.map_append, List.nodup_append, List.nodup_append]
  refine ⟨⟨h.failuresDistinct, ?_, ?_⟩, ?_, ?_⟩
  · cases s.syntaxError? file <;> simp
  · intro key hkey other hother heq
    obtain ⟨x, hx, rfl⟩ := List.mem_map.1 hkey
    have hfile : file.path.parts = other := by
      cases herror : s.syntaxError? file <;> simp [herror] at hother
      exact hother.symm
    exact h.ne_of_mem fixed hspread hqueue hx (heq.trans hfile.symm)
  · have hsublist := (unread_files_sublist (s := s)
      (firstMet a.visited (s.targets file))).map Path.parts
    rw [List.map_map] at hsublist
    exact hsublist.nodup (nodup_firstMet _ _)
  · intro key hkey other hother heq
    obtain ⟨y, hy, rfl⟩ := List.mem_map.1 hother
    refine notMem_of_mem_firstMet (mem_unread_iff.1 hy).1 ?_
    show y.file.parts ∈ a.visited
    rw [← heq]
    rcases List.mem_append.1 hkey with hkey | hkey
    · obtain ⟨x, hx, rfl⟩ := List.mem_map.1 hkey
      exact h.visited_of_mem hspread hx
    · have hfile : file.path.parts = key := by
        cases herror : s.syntaxError? file <;> simp [herror] at hkey
        exact hkey.symm
      rw [← hfile]
      exact hspread.met file (by simp [hqueue])

theorem step_failures (fixed : s.loader.Fixed) (h : s.Reported done a)
    (hvisits : s.Visits file { a with queue } b) (p : Path) (message : String) :
    (∃ x ∈ b.reach.failures, x.file.parts = p.parts ∧ x.message = message) ↔
      (∃ f ∈ done ++ [file], f.path.parts = p.parts ∧ s.syntaxError? f = some message) ∨
        p.parts ∈ b.visited ∧ s.Unreadable p message := by
  have hvisited := hvisits.visited
  have hfailures := hvisits.failures
  simp only at hvisited hfailures
  have hsyntax : (∃ x ∈ (s.syntaxError? file).toList.map (FileFailure.mk file.path),
      x.file.parts = p.parts ∧ x.message = message) ↔
        file.path.parts = p.parts ∧ s.syntaxError? file = some message := by
    cases s.syntaxError? file <;> simp
  have hunread := exists_mem_unread_iff fixed (firstMet a.visited (s.targets file)) p message
  have hold := h.failures p message
  rw [hfailures, hvisited, List.mem_append, List.mem_reverse]
  simp only [List.mem_append, or_and_right, exists_or, List.mem_singleton, exists_eq_left]
  rw [hold, hsyntax, hunread]
  constructor
  · rintro (((hf | hu) | hfile) | hu)
    · exact .inl (.inl hf)
    · exact .inr (.inr hu)
    · exact .inl (.inr hfile)
    · exact .inr (.inl hu)
  · rintro ((hf | hfile) | hnew | hmet)
    · exact .inl (.inl (.inl hf))
    · exact .inl (.inr hfile)
    · exact .inr hnew
    · exact .inl (.inl (.inr hmet))

theorem step (fixed : s.loader.Fixed) (hspread : s.Spread entry done a) (h : s.Reported done a)
    (hqueue : a.queue = file :: queue) (hvisits : s.Visits file { a with queue } b) :
    s.Reported (done ++ [file]) b := by
  obtain ⟨hdistinct, hmem⟩ := Reach.foldl_addMissing (s.lacks file) a.reach h.missingDistinct
  have hmissing : b.reach.missing = ((s.lacks file).foldl Reach.addMissing a.reach).missing :=
    hvisits.missing
  have hunsupported : b.reach.unsupported = a.reach.unsupported ++ s.rejected file :=
    hvisits.unsupported
  refine ⟨?_, fun p => ?_, ?_, h.step_failuresDistinct fixed hspread hqueue hvisits,
    h.step_failures fixed hvisits⟩
  · rw [hmissing]
    exact hdistinct
  · rw [hmissing, hmem, h.missing]
    simp [or_and_right, exists_or]
  · rw [hunsupported, h.unsupported]
    simp

end Reported

/-! ## What is learned from files that are reached -/

section

variable (s : Session Id)

def Parses (file : SourceFile) (dependencies : Dependencies) : Prop :=
  ∃ analysis : Analysis, s.learned file = .ok analysis ∧ analysis.failure = none ∧
    analysis.dependencies = dependencies

def Fails (file : SourceFile) (message : String) : Prop :=
  ∃ analysis : Analysis, s.learned file = .ok analysis ∧ analysis.failure = some message

end

variable (fixed : s.loader.Fixed)

include fixed

theorem Loads.congr {f g : SourceFile} (h : f.Alike g) (hg : s.Loads g) : s.Loads f := by
  rw [Loads, fixed.read_congr h.path, hg, h.contents]

theorem fails_iff {f g : SourceFile} (hf : s.Loads f) (h : f.Alike g) (message : String) :
    s.Fails f message ↔ s.syntaxError? g = some message := by
  have halike := learned_alike fixed hf h
  unfold Fails syntaxError?
  generalize s.learned f = x, s.analysisOf g = y at halike
  cases halike with
  | ok hab => simp [hab.failure]
  | error _ => simp

/-- Either a file fits its grammar, and its dependencies are those that the walk without memory
knows, or there is nothing that the walk could know. -/
theorem parses_cases {f g : SourceFile} (hf : s.Loads f) (h : f.Alike g) :
    (∃ dependencies, (∀ other, s.Parses f other ↔ other = dependencies) ∧
      s.lacks g = dependencies.missing.map MissingDependency.attempted ∧
      s.externals g = dependencies.external ∧
      List.Forall₂ (fun d (q : Path) => d.path.parts = q.parts) dependencies.locals (s.targets g)) ∨
    (∀ other, ¬ s.Parses f other) ∧ s.lacks g = [] ∧ s.externals g = [] ∧ s.targets g = [] := by
  have halike := learned_alike fixed hf h
  unfold Parses lacks externals targets
  generalize s.learned f = x, s.analysisOf g = y at halike
  cases halike with
  | error _ => exact .inr (by simp)
  | @ok a b hab =>
      obtain ⟨specifiers, dependencies, failure⟩ := b
      cases failure with
      | some message => exact .inr (by simp [hab.failure])
      | none =>
          refine .inl ⟨a.dependencies, fun other => ?_, ?_, ?_, ?_⟩
          · simp [hab.failure, eq_comm]
          · rw [hab.missing]
          · exact hab.external.symm
          · exact List.forall₂_map_right_iff.2 (hab.locals.imp fun _ _ hlocal => hlocal.path)

theorem loads_of_alike {fs gs : List SourceFile} (h : List.Forall₂ SourceFile.Alike fs gs)
    (hgs : ∀ g ∈ gs, s.Loads g) : List.Forall₂ (fun f g => s.Loads f ∧ f.Alike g) fs gs := by
  induction h with
  | nil => exact .nil
  | cons hfg _ ih =>
      refine .cons ⟨Loads.congr fixed hfg (hgs _ (by simp)), hfg⟩ (ih fun g hg => hgs g ?_)
      exact List.mem_cons_of_mem _ hg

theorem lacks_iff {f g : SourceFile} (hf : s.Loads f) (h : f.Alike g) (p : Path) :
    (∃ dependencies, s.Parses f dependencies ∧
      ∃ d ∈ dependencies.missing, d.attempted.same p) ↔ ∃ q ∈ s.lacks g, q.same p := by
  rcases parses_cases fixed hf h with ⟨known, hparses, hlacks, -, -⟩ | ⟨hparses, hlacks, -, -⟩
  · simp [hparses, hlacks]
  · simp [hparses, hlacks]

theorem targets_iff {f g : SourceFile} (hf : s.Loads f) (h : f.Alike g) (p : Path) :
    (∃ dependencies, s.Parses f dependencies ∧ ∃ d ∈ dependencies.locals, d.path.same p) ↔
      ∃ q ∈ s.targets g, q.parts = p.parts := by
  rcases parses_cases fixed hf h with ⟨known, hparses, -, -, htargets⟩ | ⟨hparses, -, -, htargets⟩
  · have hlocals := exists_mem_congr htargets (P := fun d => d.path.same p)
      (Q := fun q => q.parts = p.parts) fun d q hd => by rw [Path.same_iff, hd]
    simp [hparses, hlocals]
  · simp [hparses, htargets]

omit fixed

/-! ## The theorem -/

/-- Exactly the modules that a policy rejects among those that a file includes, in the order in
which they occur first. -/
structure Rejects (s : Session Id) (external names : List String) : Prop where
  nodup : names.Nodup
  mem_iff : ∀ name, name ∈ names ↔
    name ∈ external ∧ Policy.supports s.options.supported name = false
  sorted : names.Pairwise fun a b => external.idxOf a < external.idxOf b

theorem rejects_unsupported (external : List String) :
    s.Rejects external (Policy.unsupported s.options.supported external) :=
  ⟨Policy.unsupported_nodup _ _, Policy.mem_unsupported_iff _ _, Policy.unsupported_sorted _ _⟩

/-- The reports of a traversal are exactly the problems of the files that it reached. -/
structure ReportsProblems (s : Session Id) (reached : List SourceFile) (reach : Reach) : Prop where
  missing_distinct : reach.missing.Pairwise fun p q => ¬ p.same q
  mem_missing_iff : ∀ p, (∃ q ∈ reach.missing, q.same p) ↔
    ∃ f ∈ reached, ∃ dependencies, s.Parses f dependencies ∧
      ∃ d ∈ dependencies.missing, d.attempted.same p
  failures_distinct : reach.failures.Pairwise fun x y => ¬ x.file.same y.file
  mem_failures_iff : ∀ p message, (∃ x ∈ reach.failures, x.file.same p ∧ x.message = message) ↔
    (∃ f ∈ reached, f.path.same p ∧ s.Fails f message) ∨
      (∃ f ∈ reached, ∃ dependencies, s.Parses f dependencies ∧
        ∃ d ∈ dependencies.locals, d.path.same p) ∧ s.Unreadable p message
  unsupported_distinct : reach.unsupported.Pairwise fun x y => ¬ x.file.same y.file
  of_mem_unsupported : ∀ x ∈ reach.unsupported, s.options.checksModules = true ∧ x.names ≠ [] ∧
    ∃ f ∈ reached, f.path.same x.file ∧
      ∃ dependencies, s.Parses f dependencies ∧ s.Rejects dependencies.external x.names
  mem_unsupported : s.options.checksModules = true → ∀ f ∈ reached, ∀ dependencies,
    s.Parses f dependencies → (∃ name ∈ dependencies.external,
      Policy.supports s.options.supported name = false) →
    ∃ x ∈ reach.unsupported, x.file.same f.path

theorem collectPlain_reported (fixed : s.loader.Fixed) (unlimited : s.options.fileLimit = none)
    {entrypoint : Path} {reach : Reach} (h : s.collectPlain entrypoint = .ok reach) :
    ∃ a, a.reach = reach ∧ a.queue = [] ∧
      s.Spread reach.entrypoint (reach.entrypoint :: reach.files) a ∧
      s.Reported (reach.entrypoint :: reach.files) a := by
  obtain ⟨entry, all, a, -, ⟨hspread, hreported⟩, hqueue, rfl⟩ := collectPlain_rule
    (P := fun entry done a => s.Spread entry done a ∧ s.Reported done a)
    (fun entry hloads => ⟨.start hloads, .start fixed hloads⟩)
    (fun entry done file queue a b hqueue ⟨hspread, hreported⟩ hvisit =>
      have hvisits := visitPlain_spec unlimited hvisit
      ⟨hspread.step hqueue hvisits fixed, hreported.step fixed hspread hqueue hvisits⟩) h
  have hfiles := hspread.files
  rw [hqueue, List.append_nil] at hfiles
  rw [hspread.entrypoint, hfiles]
  exact ⟨a, rfl, hqueue, hspread, hreported⟩

/-- What a frontier with nothing left reports of an unreadable path: some file leads there. -/
theorem visited_unreadable_iff (fixed : s.loader.Fixed) {entry : SourceFile}
    {done : List SourceFile} {a : Frontier} (hspread : s.Spread entry done a) (p : Path)
    (message : String) : p.parts ∈ a.visited ∧ s.Unreadable p message ↔
      (∃ f ∈ done, ∃ q ∈ s.targets f, q.parts = p.parts) ∧ s.Unreadable p message := by
  refine and_congr_left fun hunreadable => ?_
  have hentry : s.Loads entry := hspread.loads entry (by simp [← hspread.files])
  rw [hspread.visited]
  refine ⟨fun h => h.resolve_left fun hparts => ?_, .inr⟩
  exact hunreadable.not_loads fixed hentry hparts.symm

theorem mem_rejected_iff {file : SourceFile} {x : UnsupportedModules} : x ∈ s.rejected file ↔
    s.options.checksModules = true ∧ x.file = file.path ∧
      x.names = Policy.unsupported s.options.supported (s.externals file) ∧ x.names ≠ [] := by
  obtain ⟨path, names⟩ := x
  unfold rejected
  by_cases hchecks : s.options.checksModules = true
  · by_cases hempty : Policy.unsupported s.options.supported (s.externals file) = []
    · simp only [hchecks, hempty]
      simp
    · simp only [hchecks, List.isEmpty_eq_false_iff.2 hempty]
      simp only [Bool.not_false, Bool.and_self, if_true, List.mem_singleton,
        UnsupportedModules.mk.injEq, true_and]
      refine ⟨fun ⟨hpath, hnames⟩ => ⟨hpath, hnames, hnames ▸ hempty⟩, fun h => ⟨h.1, h.2.1⟩⟩
  · simp [hchecks]

theorem Spread.pairwise_rejected {entry : SourceFile} {done : List SourceFile} {a : Frontier}
    (h : s.Spread entry done a) :
    (done.flatMap s.rejected).Pairwise fun x y => ¬ x.file.same y.file := by
  have hdistinct := h.distinct
  rw [List.map_append, List.nodup_append] at hdistinct
  rw [List.pairwise_flatMap]
  refine ⟨fun f _ => ?_, (List.pairwise_map.1 hdistinct.1).imp fun hne x hx y hy hsame => hne ?_⟩
  · unfold rejected
    simp only
    split <;> simp
  · rw [← (mem_rejected_iff.1 hx).2.1, ← (mem_rejected_iff.1 hy).2.1]
    exact (Path.same_iff _ _).1 hsame

/-- What is reported of modules was rejected, and in the order of the file that has them. -/
theorem of_mem_unsupported (fixed : s.loader.Fixed) {fs gs : List SourceFile}
    (hreached : List.Forall₂ (fun f g => s.Loads f ∧ f.Alike g) fs gs)
    {unsupported : List UnsupportedModules}
    (hunsupported : List.Forall₂ UnsupportedModules.Alike unsupported (gs.flatMap s.rejected))
    {x : UnsupportedModules} (hx : x ∈ unsupported) :
    s.options.checksModules = true ∧ x.names ≠ [] ∧ ∃ f ∈ fs, f.path.same x.file ∧
      ∃ dependencies, s.Parses f dependencies ∧ s.Rejects dependencies.external x.names := by
  obtain ⟨y, hy, hxy⟩ := exists_right hunsupported hx
  obtain ⟨g, hg, hyg⟩ := List.mem_flatMap.1 hy
  obtain ⟨hchecks, hfile, hnames, hne⟩ := mem_rejected_iff.1 hyg
  obtain ⟨f, hf, hloads, hfg⟩ := exists_left hreached hg
  rcases parses_cases fixed hloads hfg with ⟨known, hparses, -, hexternals, -⟩ | ⟨-, -, hnone, -⟩
  · refine ⟨hchecks, hxy.names ▸ hne, f, hf, ?_, known, (hparses known).2 rfl, ?_⟩
    · rw [Path.same_iff, hfg.path, hxy.file, hfile]
    · rw [hxy.names, hnames, hexternals]
      exact rejects_unsupported _
  · rw [hnames, hnone] at hne
    exact absurd rfl hne

/-- A file with a module that the policy rejects is reported. -/
theorem exists_mem_unsupported (fixed : s.loader.Fixed) {fs gs : List SourceFile}
    (hreached : List.Forall₂ (fun f g => s.Loads f ∧ f.Alike g) fs gs)
    {unsupported : List UnsupportedModules}
    (hunsupported : List.Forall₂ UnsupportedModules.Alike unsupported (gs.flatMap s.rejected))
    (hchecks : s.options.checksModules = true) {f : SourceFile} (hf : f ∈ fs)
    {dependencies : Dependencies} (hparses : s.Parses f dependencies)
    (hname : ∃ name ∈ dependencies.external, Policy.supports s.options.supported name = false) :
    ∃ x ∈ unsupported, x.file.same f.path := by
  obtain ⟨g, hg, hloads, hfg⟩ := exists_right hreached hf
  rcases parses_cases fixed hloads hfg with ⟨known, hknown, -, hexternals, -⟩ | ⟨hnone, -⟩
  · obtain rfl := (hknown dependencies).1 hparses
    obtain ⟨name, hname⟩ := hname
    have hmem := (Policy.mem_unsupported_iff s.options.supported _ name).2 hname
    have hrejected : (⟨g.path, Policy.unsupported s.options.supported dependencies.external⟩ :
        UnsupportedModules) ∈ s.rejected g :=
      mem_rejected_iff.2 ⟨hchecks, rfl, by rw [hexternals], List.ne_nil_of_mem hmem⟩
    obtain ⟨x, hx, hxy⟩ := exists_left hunsupported (List.mem_flatMap.2 ⟨g, hg, hrejected⟩)
    exact ⟨x, hx, (Path.same_iff _ _).2 (hxy.file.trans hfg.path.symm)⟩
  · exact absurd hparses (hnone dependencies)

theorem Reported.reportsProblems (fixed : s.loader.Fixed) {reach : Reach} {a : Frontier}
    (halike : reach.Alike a.reach)
    (hspread : s.Spread a.reach.entrypoint (a.reach.entrypoint :: a.reach.files) a)
    (h : s.Reported (a.reach.entrypoint :: a.reach.files) a) :
    s.ReportsProblems (reach.entrypoint :: reach.files) reach := by
  have hreached : List.Forall₂ (fun f g => s.Loads f ∧ f.Alike g)
      (reach.entrypoint :: reach.files) (a.reach.entrypoint :: a.reach.files) :=
    loads_of_alike fixed (.cons halike.entrypoint halike.files) fun g hg =>
      hspread.loads g (List.mem_append_left _ hg)
  have hunsupported := halike.unsupported
  rw [h.unsupported] at hunsupported
  refine
    { missing_distinct := ?_, mem_missing_iff := fun p => ?_, failures_distinct := ?_
      mem_failures_iff := fun p message => ?_, unsupported_distinct := ?_
      of_mem_unsupported := fun x hx => of_mem_unsupported fixed hreached hunsupported hx
      mem_unsupported := fun hchecks f hf dependencies hparses hname =>
        exists_mem_unsupported fixed hreached hunsupported hchecks hf hparses hname }
  · refine (pairwise_congr halike.missing fun p p' q q' hp hq => ?_).2 h.missingDistinct
    simp [Path.same_iff, hp, hq]
  · have hiff := exists_mem_congr halike.missing (P := fun q => q.same p)
      (Q := fun q => q.same p) fun q q' hq => by simp [Path.same_iff, hq]
    rw [hiff, h.missing]
    exact (exists_mem_congr hreached fun f g hfg => lacks_iff fixed hfg.1 hfg.2 p).symm
  · refine (pairwise_congr halike.failures fun x x' y y' hx hy => ?_).2
      (List.pairwise_map.1 h.failuresDistinct)
    simp [Path.same_iff, hx.file, hy.file]
  · have hiff := exists_mem_congr halike.failures
      (P := fun x => x.file.same p ∧ x.message = message)
      (Q := fun x => x.file.parts = p.parts ∧ x.message = message) fun x x' hx => by
        simp [Path.same_iff, hx.file, hx.message]
    rw [hiff, h.failures, visited_unreadable_iff fixed hspread]
    refine or_congr ?_ (and_congr_left' ?_)
    · refine (exists_mem_congr hreached fun f g hfg => ?_).symm
      rw [Path.same_iff, hfg.2.path, fails_iff fixed hfg.1 hfg.2]
    · exact (exists_mem_congr hreached fun f g hfg => targets_iff fixed hfg.1 hfg.2 p).symm
  · refine (pairwise_congr hunsupported fun x x' y y' hx hy => ?_).2 hspread.pairwise_rejected
    simp [Path.same_iff, hx.file, hy.file]

theorem resolve_of_collect {memory : Memory} {entrypoint : Path} {reach : Reach}
    (h : ((s.collect entrypoint).run memory).run.1 = .ok reach) :
    ((s.resolve entrypoint).run memory).run.1 = reach.validate := by
  unfold resolve
  rw [StateT.run_bind]
  generalize (s.collect entrypoint).run memory = found at h
  obtain ⟨result, next⟩ := found
  cases h
  rfl

theorem validate_isOk_iff (reach : Reach) : (∃ resolved, reach.validate = .ok resolved) ↔
    reach.missing = [] ∧ reach.unsupported = [] ∧ reach.failures = [] := by
  have hempty : reach.problems.isEmpty = true ↔
      reach.missing = [] ∧ reach.unsupported = [] ∧ reach.failures = [] := by
    simp [Reach.problems, Problems.isEmpty, and_assoc]
  unfold Reach.validate
  rw [← hempty]
  by_cases h : reach.problems.isEmpty = true <;> simp [h]

/-- What is found like the walk without memory is reported in full. -/
theorem reportsProblems_of_alike (fixed : s.loader.Fixed)
    (unlimited : s.options.fileLimit = none) {entrypoint : Path} {reach : Reach}
    (h : Alike Reach.Alike (.ok reach) (s.collectPlain entrypoint)) :
    s.ReportsProblems (reach.entrypoint :: reach.files) reach ∧
      (s.options.checksModules = false → reach.unsupported = []) := by
  generalize hother : s.collectPlain entrypoint = other at h
  cases h with
  | @ok _ plain halike =>
      obtain ⟨a, rfl, -, hspread, hreported⟩ := collectPlain_reported fixed unlimited hother
      have hreports := hreported.reportsProblems fixed halike hspread
      refine ⟨hreports, fun hoff => List.eq_nil_iff_forall_not_mem.2 fun x hx => ?_⟩
      have hon := (hreports.of_mem_unsupported x hx).1
      simp [hoff] at hon

/-- No problem of the files that a traversal reaches without a limit is lost, invented or reported
twice, and an entrypoint is resolved exactly when there is none. -/
theorem collect_reports (fixed : s.loader.Fixed) (unlimited : s.options.fileLimit = none)
    (calls : List (Call Id)) (entrypoint : Path) (reach : Reach)
    (h : ((s.collect entrypoint).run (s.memoryAfter calls)).run.1 = .ok reach) :
    s.ReportsProblems (reach.entrypoint :: reach.files) reach ∧
      (s.options.checksModules = false → reach.unsupported = []) ∧
      ((∃ resolved, ((s.resolve entrypoint).run (s.memoryAfter calls)).run.1 = .ok resolved) ↔
        reach.missing = [] ∧ reach.unsupported = [] ∧ reach.failures = []) := by
  have hplain := collect_memoryAfter fixed calls entrypoint
  rw [h] at hplain
  obtain ⟨hreports, hoff⟩ := reportsProblems_of_alike fixed unlimited hplain
  refine ⟨hreports, hoff, ?_⟩
  rw [resolve_of_collect h]
  exact validate_isOk_iff reach

theorem collect_reports_sample :
    sample.loader.Fixed ∧ sample.options.fileLimit = none ∧
      ∃ reach, ((sample.collect ⟨"/x/../a.js"⟩).run
          (sample.memoryAfter [.collect ⟨"/gone.js"⟩, .resolve ⟨"/b.js"⟩])).run.1 = .ok reach ∧
        reach.Alike sampleReach ∧
        sample.ReportsProblems (reach.entrypoint :: reach.files) reach ∧
        ¬ ∃ resolved, ((sample.resolve ⟨"/x/../a.js"⟩).run
          (sample.memoryAfter [.collect ⟨"/gone.js"⟩, .resolve ⟨"/b.js"⟩])).run.1
            = .ok resolved := by
  obtain ⟨reach, hreach, halike⟩ := exists_collect_alike sample_fixed
    [.collect ⟨"/gone.js"⟩, .resolve ⟨"/b.js"⟩] sample_collectPlain
  obtain ⟨hreports, -, hresolve⟩ := collect_reports sample_fixed rfl _ _ reach hreach
  refine ⟨sample_fixed, rfl, reach, hreach, halike, hreports, fun hresolved => ?_⟩
  have hmissing := halike.missing
  rw [(hresolve.1 hresolved).1] at hmissing
  cases hmissing

end Session

end ModuleTrace
