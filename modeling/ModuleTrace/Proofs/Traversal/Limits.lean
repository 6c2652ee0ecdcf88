import ModuleTrace.Proofs.Traversal.Meetings
import ModuleTrace.Proofs.Traversal.Progress
import ModuleTrace.Proofs.Traversal.Transparency

/-!
# Limits of a traversal

A limit is looked at in the moment in which a path is met, before the path is read. So it stops a
traversal exactly when a path is met while as many files as the limit allows are found already,
also if that path turns out not to be readable. Else the limit changes nothing.
-/

namespace ModuleTrace

namespace Session

def limited {m : Type → Type} (s : Session m) (limit : Nat) : Session m :=
  { s with options := { s.options with fileLimit := some limit } }

/-! ## Paths met after the limit was reached -/

section

variable (s : Session Id) (limit : Nat)

/-- Some paths are met after a number of files: one of them is met when the limit is reached. -/
def overruns : Nat → List Path → Bool
  | _, [] => false
  | count, path :: rest => limit ≤ count || overruns (count + (s.loaded [path]).length) rest

theorem loaded_append (paths more : List Path) :
    s.loaded (paths ++ more) = s.loaded paths ++ s.loaded more :=
  List.filterMap_append

theorem overruns_append (count : Nat) (paths more : List Path) :
    s.overruns limit count (paths ++ more)
      = (s.overruns limit count paths
        || s.overruns limit (count + (s.loaded paths).length) more) := by
  induction paths generalizing count with
  | nil => simp [overruns, loaded]
  | cons path rest ih =>
      have hlength : (s.loaded (path :: rest)).length
          = (s.loaded [path]).length + (s.loaded rest).length := by
        rw [← List.length_append, ← loaded_append]
        rfl
      rw [List.cons_append, overruns, overruns, ih, hlength, Bool.or_assoc, Nat.add_assoc]

/-- Of several paths the last one is met when the most files are found. -/
theorem overruns_concat (count : Nat) (paths : List Path) (last : Path) :
    s.overruns limit count (paths ++ [last]) = true ↔ limit ≤ count + (s.loaded paths).length := by
  have hbound : ∀ count, s.overruns limit count paths = true →
      limit ≤ count + (s.loaded paths).length := by
    induction paths with
    | nil => simp [overruns]
    | cons path rest ih =>
        intro count h
        have hlength : (s.loaded (path :: rest)).length
            = (s.loaded [path]).length + (s.loaded rest).length := by
          rw [← List.length_append, ← loaded_append]
          rfl
        rw [overruns, Bool.or_eq_true, decide_eq_true_eq] at h
        rcases h with h | h
        · omega
        · have := ih _ h
          omega
  rw [overruns_append, Bool.or_eq_true]
  simp only [overruns, Bool.or_false, decide_eq_true_eq]
  exact ⟨fun h => h.elim (hbound count) id, .inr⟩

end

/-! ## The walk without memory -/

section

variable {s : Session Id} (unlimited : s.options.fileLimit = none) (limit : Nat)

include unlimited

theorem meetPlain_limited (a : Frontier) (path : Path) :
    (s.limited limit).meetPlain a path
      = if s.overruns limit a.reach.files.length (firstMet a.visited [path])
        then .error (.limitExceeded a.reach.entrypoint.path limit)
        else .ok (s.extend a (firstMet a.visited [path])) := by
  rw [← meetPlain_eq unlimited]
  by_cases hpath : path.parts ∈ a.visited
  · simp [meetPlain, firstMet, overruns, hpath]
  · by_cases hlimit : limit ≤ a.reach.files.length
    · simp [meetPlain, firstMet, overruns, hpath, hlimit, limited, Option.filter]
    · simp [meetPlain, firstMet, overruns, hpath, hlimit, limited, unlimited, Option.filter]

theorem meetAllPlain_limited (a : Frontier) (paths : List Path) :
    paths.foldlM (s.limited limit).meetPlain a
      = if s.overruns limit a.reach.files.length (firstMet a.visited paths)
        then .error (.limitExceeded a.reach.entrypoint.path limit)
        else .ok (s.extend a (firstMet a.visited paths)) := by
  induction paths generalizing a with
  | nil => simp [firstMet, overruns, extend_nil, pure, Except.pure]
  | cons path rest ih =>
      rw [List.foldlM_cons, meetPlain_limited unlimited, firstMet_cons _ path rest,
        overruns_append]
      cases s.overruns limit a.reach.files.length (firstMet a.visited [path]) with
      | true => rfl
      | false =>
          show List.foldlM (s.limited limit).meetPlain _ rest = _
          rw [ih, extend_extend]
          simp [extend]

structure Meets (s : Session Id) (met : List Path) (a b : Frontier) : Prop where
  entrypoint : b.reach.entrypoint = a.reach.entrypoint
  visited : b.visited = (met.map Path.parts).reverse ++ a.visited
  files : b.reach.files = a.reach.files ++ s.loaded met

/-- A run, and the same run under a limit: stopped when a path is met that may not be. -/
def Stopped (s : Session Id) (limit : Nat) (a b : Frontier) (run : Except ResolveError Frontier) :
    Prop :=
  ∃ met, s.Meets met a b ∧ run = if s.overruns limit a.reach.files.length met
    then .error (.limitExceeded a.reach.entrypoint.path limit) else .ok b

theorem visitPlain_limited {file : SourceFile} {a b : Frontier}
    (h : s.visitPlain file a = .ok b) :
    s.Stopped limit a b ((s.limited limit).visitPlain file a) := by
  have hvisits := visitPlain_spec unlimited h
  refine ⟨firstMet a.visited (s.targets file),
    ⟨hvisits.entrypoint, hvisits.visited, hvisits.files⟩, ?_⟩
  have hsame : (s.limited limit).analysisOf file = s.analysisOf file := rfl
  unfold visitPlain at h ⊢
  rw [hsame]
  cases hanalysis : s.analysisOf file with
  | error error => simp [hanalysis] at h
  | ok analysis =>
      obtain ⟨specifiers, dependencies, failure⟩ := analysis
      simp only [hanalysis] at h ⊢
      cases failure with
      | some message =>
          have htargets : s.targets file = [] := by rw [targets, hanalysis]
          simp only at h ⊢
          rw [htargets]
          exact h
      | none =>
          have htargets : s.targets file = dependencies.locals.map LocalDependency.path := by
            rw [targets, hanalysis]
          have hnotes : ∀ reach, (s.limited limit).noteProblems file
              ⟨specifiers, dependencies, none⟩ reach
                = s.noteProblems file ⟨specifiers, dependencies, none⟩ reach := fun _ => rfl
          simp only [hnotes, noteProblems_eq hanalysis, ← htargets] at h ⊢
          rw [meetAllPlain_eq unlimited] at h
          cases h
          rw [meetAllPlain_limited unlimited]

/-- By induction on the rounds: what is met in one visit and in the rest of the run is met in the
whole. -/
theorem traversePlain_limited {fuel : Nat} {a b : Frontier}
    (h : s.traversePlain fuel a = .ok b) :
    s.Stopped limit a b ((s.limited limit).traversePlain fuel a) := by
  induction fuel generalizing a with
  | zero =>
      unfold traversePlain at h ⊢
      split at h
      · cases h
        exact ⟨[], ⟨rfl, rfl, by simp [loaded]⟩, rfl⟩
      · cases h
  | succ fuel ih =>
      unfold traversePlain at h ⊢
      split at h
      · cases h
        exact ⟨[], ⟨rfl, rfl, by simp [loaded]⟩, rfl⟩
      · rename_i file queue hqueue
        cases hvisit : s.visitPlain file { a with queue } with
        | error error =>
            rw [hvisit] at h
            cases h
        | ok next =>
            rw [hvisit] at h
            obtain ⟨first, hfirst, hrun⟩ := visitPlain_limited unlimited limit hvisit
            obtain ⟨rest, hrest, hlast⟩ := ih h
            refine ⟨first ++ rest, ⟨?_, ?_, ?_⟩, ?_⟩
            · exact hrest.entrypoint.trans hfirst.entrypoint
            · rw [hrest.visited, hfirst.visited]
              simp
            · rw [hrest.files, hfirst.files, loaded_append]
              simp
            · have hvisited : (s.limited limit).visitPlain file { a with queue }
                  = if s.overruns limit a.reach.files.length first
                    then .error (.limitExceeded a.reach.entrypoint.path limit) else .ok next :=
                hrun
              have hcount : next.reach.files.length
                  = a.reach.files.length + (s.loaded first).length := by
                rw [hfirst.files, List.length_append]
              have hentry : next.reach.entrypoint = a.reach.entrypoint := hfirst.entrypoint
              simp only [hvisited, overruns_append]
              cases s.overruns limit a.reach.files.length first with
              | true => rfl
              | false =>
                  rw [← hcount, ← hentry]
                  exact hlast

end

/-! ## Under a limit -/

section

variable (s : Session Id)

/-- The last path that is met cannot be read. -/
def EndsUnread (entrypoint : Path) : Prop :=
  ∃ path, (s.met entrypoint).getLast? = some path ∧ ¬ s.Reads path

/-- More files are found than a limit allows, or just as many and then a path is met that cannot
be read. -/
def Exceeds (entrypoint : Path) (limit : Nat) (reach : Reach) : Prop :=
  limit < reach.files.length ∨ limit = reach.files.length ∧ s.EndsUnread entrypoint

variable {s}

theorem length_loaded_singleton (path : Path) :
    (s.Reads path → (s.loaded [path]).length = 1) ∧
      (¬ s.Reads path → (s.loaded [path]).length = 0) := by
  unfold Reads loaded
  cases hread : (s.loader.read path).run <;> simp [hread, Except.toOption]

variable (fixed : s.loader.Fixed)

include fixed

theorem exceeds_iff {entrypoint : Path} {contents : String} {b : Frontier} {paths : List Path}
    {limit : Nat} (hread : (s.loader.read entrypoint.normalize).run = .ok contents)
    (h : s.traversePlain (s.loader.extent + 1) (startAt ⟨entrypoint.normalize, contents⟩) = .ok b)
    (hmeets : s.Meets paths (startAt ⟨entrypoint.normalize, contents⟩) b) :
    s.overruns limit 0 paths = true ↔ s.Exceeds entrypoint limit b.reach := by
  have hmet : (s.met entrypoint).map Path.parts
      = entrypoint.normalize.parts :: paths.map Path.parts := by
    rw [met_of_traversePlain fixed hread h, hmeets.visited]
    simp [startAt]
  have hfiles : b.reach.files = s.loaded paths := by
    rw [hmeets.files]
    simp [startAt]
  have hlast : ∀ last, ((s.met entrypoint).map Path.parts).getLast? = some (Path.parts last) →
      (s.EndsUnread entrypoint ↔ ¬ s.Reads last) := by
    intro last hlast
    rw [List.getLast?_map] at hlast
    obtain ⟨path, hpath, hparts⟩ := Option.map_eq_some_iff.1 hlast
    have hsame : s.Reads path ↔ s.Reads last :=
      ⟨fun hr => hr.congr fixed hparts, fun hr => hr.congr fixed hparts.symm⟩
    simp [EndsUnread, hpath, hsame]
  rw [Exceeds, hfiles]
  rcases List.eq_nil_or_concat paths with rfl | ⟨front, last, rfl⟩
  · have hends : ¬ s.EndsUnread entrypoint := by
      rw [hlast entrypoint.normalize (by rw [hmet]; rfl), not_not]
      exact ⟨contents, hread⟩
    simp [overruns, loaded, hends]
  · have hends : s.EndsUnread entrypoint ↔ ¬ s.Reads last := by
      apply hlast
      rw [hmet, List.concat_eq_append, List.map_append, ← List.cons_append]
      exact List.getLast?_concat
    have hlength : (s.loaded (front ++ [last])).length
        = (s.loaded front).length + (s.loaded [last]).length := by
      rw [loaded_append, List.length_append]
    rw [List.concat_eq_append, overruns_concat, hends, hlength]
    by_cases hlast : s.Reads last
    · have hone := (length_loaded_singleton last).1 hlast
      simp only [hlast, not_true_eq_false, and_false, or_false]
      omega
    · have hzero := (length_loaded_singleton last).2 hlast
      simp only [hlast, not_false_eq_true, and_true]
      omega

variable (unlimited : s.options.fileLimit = none)

include unlimited

theorem collectPlain_limited (limit : Nat) {entrypoint : Path} {reach : Reach}
    (h : s.collectPlain entrypoint = .ok reach) :
    (s.Exceeds entrypoint limit reach → (s.limited limit).collectPlain entrypoint
        = .error (.limitExceeded entrypoint.normalize limit)) ∧
      (¬ s.Exceeds entrypoint limit reach →
        (s.limited limit).collectPlain entrypoint = .ok reach) := by
  obtain ⟨contents, b, hread, hrun, rfl⟩ := exists_traversePlain h
  obtain ⟨paths, hmeets, hlimited⟩ := traversePlain_limited unlimited limit hrun
  rw [← exceeds_iff fixed hread hrun hmeets]
  have hcollect : (s.limited limit).collectPlain entrypoint = (do
      let frontier ← (s.limited limit).traversePlain (s.loader.extent + 1)
        (startAt ⟨entrypoint.normalize, contents⟩)
      return frontier.reach) := by
    unfold collectPlain
    have hsame : ((s.limited limit).loader.read entrypoint.normalize).run = .ok contents := hread
    simp only [hsame]
    rfl
  have hlimited : (s.limited limit).traversePlain (s.loader.extent + 1)
      (startAt ⟨entrypoint.normalize, contents⟩) = if s.overruns limit 0 paths
        then .error (.limitExceeded entrypoint.normalize limit) else .ok b := hlimited
  rw [hcollect, hlimited]
  constructor
  · intro hover
    rw [if_pos hover]
    rfl
  · intro hover
    rw [if_neg hover]
    rfl

/-- Where a traversal ends well without a limit, one with a limit stops with that limit exactly
if more files are found than it allows, or just as many and then a path is met that cannot be
read. Else it finds the same, whatever both sessions were asked before. -/
theorem collect_limited (limit : Nat) (calls past : List (Call Id)) {entrypoint : Path}
    {reach : Reach}
    (h : ((s.collect entrypoint).run (s.memoryAfter calls)).run.1 = .ok reach) :
    (s.Exceeds entrypoint limit reach → ∃ path : Path,
      path.parts = entrypoint.normalize.parts ∧
        (((s.limited limit).collect entrypoint).run
          ((s.limited limit).memoryAfter past)).run.1 = .error (.limitExceeded path limit)) ∧
      (¬ s.Exceeds entrypoint limit reach → ∃ other,
        (((s.limited limit).collect entrypoint).run
          ((s.limited limit).memoryAfter past)).run.1 = .ok other ∧ other.Alike reach) := by
  have hlimited : (s.limited limit).loader.Fixed := fixed
  have halike := collect_memoryAfter fixed calls entrypoint
  rw [h] at halike
  cases hplain : s.collectPlain entrypoint with
  | error error =>
      rw [hplain] at halike
      cases halike
  | ok plain =>
      rw [hplain] at halike
      cases halike with
      | ok hreach =>
          have hexceeds : s.Exceeds entrypoint limit reach ↔ s.Exceeds entrypoint limit plain := by
            rw [Exceeds, Exceeds, hreach.files.length_eq]
          have hwalk := collectPlain_limited fixed unlimited limit hplain
          rw [hexceeds]
          constructor
          · intro hover
            obtain ⟨error, herror, halike⟩ := exists_error_alike hlimited past (hwalk.1 hover)
            cases error with
            | limitExceeded path other =>
                obtain ⟨hpath, rfl⟩ := halike
                exact ⟨path, hpath, herror⟩
            | _ => exact halike.elim
          · intro hover
            obtain ⟨other, hother, hsame⟩ :=
              exists_collect_alike hlimited past (hwalk.2 hover)
            exact ⟨other, hother, hsame.of_common hreach⟩

end

/-- A script that includes two files, of which one cannot be read. -/
def locked (contents : String) : Session Id where
  loader :=
    { read := fun path =>
        if path.parts = [.root, .name "p", .name "a.js"] then .ok contents
        else if path.parts = [.root, .name "p", .name "b.js"] then .ok ""
        else .error .denied
      isFile := fun path =>
        [[.root, .name "p", .name "a.js"], [.root, .name "p", .name "b.js"],
          [.root, .name "p", .name "c.js"]].contains path.parts
      isDirectory := fun _ => false
      extent := 3 }
  extractor := .ofTexts [("bc", .specifiers ["./b", "./c"]), ("cb", .specifiers ["./c", "./b"])]
  options := {}
  workspace := none

theorem locked_fixed (contents : String) : (locked contents).loader.Fixed where
  read_same p q h := by simp [locked, (Path.same_iff p q).1 h]
  isFile_same p q h := by simp [locked, (Path.same_iff p q).1 h]
  isFile_of_read path text h := by
    unfold locked at h ⊢
    by_cases hscript : path.parts = [.root, .name "p", .name "a.js"]
    · simp [hscript, Id.run]
    · by_cases hother : path.parts = [.root, .name "p", .name "b.js"]
      · simp [hother, Id.run]
      · simp only [hscript, hother, if_false] at h
        cases h

theorem collect_limited_locked :
    (locked "bc").loader.Fixed ∧ (locked "bc").options.fileLimit = none ∧
      ∃ reach, (((locked "bc").collect ⟨"/p/a.js"⟩).run {}).run.1 = .ok reach ∧
        reach.files.length = 1 ∧
        (∃ path : Path, ((((locked "bc").limited 0).collect ⟨"/p/a.js"⟩).run {}).run.1
          = .error (.limitExceeded path 0)) ∧
        ∃ other, ((((locked "bc").limited 2).collect ⟨"/p/a.js"⟩).run {}).run.1 = .ok other ∧
          other.Alike reach := by
  have hplain : ((locked "bc").collectPlain ⟨"/p/a.js"⟩).toOption.map
      (fun reach => reach.files.map SourceFile.path) = some [⟨"/p/b.js"⟩] := by decide +kernel
  obtain ⟨reach, hreach, hfiles⟩ := exists_collect_files (locked_fixed "bc") [] hplain
  have hlength : reach.files.length = 1 := hfiles.length_eq
  have hzero : (locked "bc").Exceeds ⟨"/p/a.js"⟩ 0 reach := .inl (by omega)
  have htwo : ¬ (locked "bc").Exceeds ⟨"/p/a.js"⟩ 2 reach := by
    rintro (h | h)
    · omega
    · omega
  obtain ⟨path, -, hpath⟩ :=
    (collect_limited (locked_fixed "bc") rfl 0 [] [] hreach).1 hzero
  exact ⟨locked_fixed "bc", rfl, reach, hreach, hlength, ⟨path, hpath⟩,
    (collect_limited (locked_fixed "bc") rfl 2 [] [] hreach).2 htwo⟩

/-- A file that cannot be read counts as one too many when it is included last, and not when it is
included first. -/
theorem collect_limited_unread :
    (∃ reach, (((locked "bc").collect ⟨"/p/a.js"⟩).run {}).run.1 = .ok reach ∧
      reach.files.length = 1) ∧
    (∃ path : Path, ((((locked "bc").limited 1).collect ⟨"/p/a.js"⟩).run {}).run.1
      = .error (.limitExceeded path 1)) ∧
    ∃ reach, ((((locked "cb").limited 1).collect ⟨"/p/a.js"⟩).run {}).run.1 = .ok reach ∧
      reach.files.length = 1 := by
  have hlast : ((locked "bc").collectPlain ⟨"/p/a.js"⟩).toOption.map
      (fun reach => reach.files.map SourceFile.path) = some [⟨"/p/b.js"⟩] := by decide +kernel
  have hstopped : ((locked "bc").limited 1).collectPlain ⟨"/p/a.js"⟩
      = .error (.limitExceeded ⟨"/p/a.js"⟩ 1) := by decide +kernel
  have hfirst : (((locked "cb").limited 1).collectPlain ⟨"/p/a.js"⟩).toOption.map
      (fun reach => reach.files.map SourceFile.path) = some [⟨"/p/b.js"⟩] := by decide +kernel
  have hlimited : ∀ contents, ((locked contents).limited 1).loader.Fixed := locked_fixed
  obtain ⟨reach, hreach, hfiles⟩ := exists_collect_files (locked_fixed "bc") [] hlast
  obtain ⟨other, hother, hfiles'⟩ := exists_collect_files (hlimited "cb") [] hfirst
  obtain ⟨error, herror, halike⟩ := exists_error_alike (hlimited "bc") [] hstopped
  refine ⟨⟨reach, hreach, hfiles.length_eq⟩, ?_, other, hother, hfiles'.length_eq⟩
  cases error with
  | limitExceeded path limit =>
      obtain ⟨-, rfl⟩ := halike
      exact ⟨path, herror⟩
  | _ => exact halike.elim

end Session

end ModuleTrace
