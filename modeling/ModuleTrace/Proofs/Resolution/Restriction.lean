import ModuleTrace.Proofs.Resolution.Probing
import ModuleTrace.Proofs.Workspace.Packages

/-!
# Restriction only takes away

A boundary is held against the files of a list and changes neither the list nor what comes after
it. So a search with a boundary finds what the search without one finds, if that lies where it may,
and otherwise something later or nothing.
-/

namespace ModuleTrace

def Surroundings.opened (s : Surroundings) : Surroundings :=
  { s with boundary := none }

/-- A dependency lies where a boundary lets it lie: in the package by whose name it was found, or
else within the boundary. -/
def LocalDependency.LiesWithin (d : LocalDependency) (workspace : Option Workspace)
    (boundary : Path) : Prop :=
  match d.rule with
  | .workspace name => ∃ package, (workspace.bind fun w => w.byName name) = some package ∧
      d.path.isUnder package.path = true
  | _ => d.path.isUnder boundary = true

theorem LocalDependency.LiesWithin.congr {d e : LocalDependency} {workspace : Option Workspace}
    {boundary : Path} (h : d.LiesWithin workspace boundary) (halike : d.Alike e) :
    e.LiesWithin workspace boundary := by
  unfold LiesWithin at h ⊢
  rw [← halike.rule]
  have hunder := Path.isUnder_congr halike.path
  split at h
  · obtain ⟨package, hpackage, hlies⟩ := h
    exact ⟨package, hpackage, by rw [← hunder, hlies]⟩
  · rw [← hunder, h]

namespace Loader

/-! ## One attempt -/

def Attempt.opened (attempt : Attempt) : Attempt :=
  { attempt with surroundings := attempt.surroundings.opened }

section

variable {loader : Loader Id} {attempt : Attempt}

theorem finds_opened_eq_some_iff (path : Path) :
    loader.finds attempt.opened = some path ↔ loader.has path = true ∧
      ∃ before after, loader.probes attempt.surroundings.root Classifier.manifestDepth
        attempt.target attempt.config = before ++ path :: after ∧
        ∀ other ∈ before, loader.has other = false := by
  have hpermits : ∀ path, attempt.opened.surroundings.permits path = true := fun _ => rfl
  simp only [finds, hpermits, Bool.and_true, List.find?_eq_some_iff_append]
  simp [Attempt.opened, Surroundings.opened]

theorem finds_of_opened_eq_none (h : loader.finds attempt.opened = none) :
    loader.finds attempt = none := by
  have hpermits : ∀ path, attempt.opened.surroundings.permits path = true := fun _ => rfl
  simp only [finds, hpermits, Bool.and_true, List.find?_eq_none] at h ⊢
  intro path hpath hfound
  rw [Bool.and_eq_true] at hfound
  exact h path hpath hfound.1

/-- Files before the first one are not there, so no boundary can bring them in. -/
theorem finds_of_opened {path : Path} (h : loader.finds attempt.opened = some path)
    (hpermits : attempt.surroundings.permits path = true) : loader.finds attempt = some path := by
  obtain ⟨hhas, before, after, hlist, hbefore⟩ := (finds_opened_eq_some_iff path).1 h
  rw [finds, List.find?_eq_some_iff_append]
  refine ⟨by rw [hhas, hpermits]; rfl, before, after, hlist, fun other hother => ?_⟩
  simp [hbefore other hother]

end

/-! ## All attempts -/

section

variable (loader : Loader Id) (s : Surroundings) (file : SourceFile) (specifier : String)

def trials : List Attempt :=
  if Specifier.hasScheme specifier then []
  else if Specifier.isLocal specifier then [loader.relativeAttempt s file specifier]
  else loader.attempts s file specifier

/-- What a specifier means that no rule finds a file for. -/
def unfound : Classification :=
  if Specifier.isLocal specifier then .missing ⟨specifier, (file.directory / specifier).normalize⟩
  else .external specifier

variable {loader s file specifier}

theorem meaning_eq_trials : loader.meaning s file specifier
    = ((loader.trials s file specifier).findSome? (loader.outcome specifier)).elim
      (unfound file specifier) .localFile := by
  cases hscheme : Specifier.hasScheme specifier with
  | true =>
      have hlocal := Specifier.isLocal_of_hasScheme hscheme
      rw [meaning_of_scheme hscheme]
      simp [trials, unfound, hscheme, hlocal]
  | false =>
      cases hlocal : Specifier.isLocal specifier with
      | true =>
          rw [meaning_of_local hlocal]
          simp only [trials, unfound, hscheme, hlocal, Bool.false_eq_true, if_false, if_true,
            List.findSome?_singleton]
      | false =>
          rw [meaning_of_bare hlocal hscheme]
          simp only [trials, unfound, hscheme, hlocal, Bool.false_eq_true, if_false]

theorem workspaceAttempts_opened : loader.workspaceAttempts s.opened specifier
    = (loader.workspaceAttempts s specifier).map Attempt.opened := by
  have hworkspace : s.opened.workspace = s.workspace := rfl
  have hroot : s.opened.root = s.root := rfl
  have hinside : ∀ package, s.opened.inside package = (s.inside package).opened := fun _ => rfl
  unfold workspaceAttempts
  simp only [hworkspace, hroot, hinside]
  cases s.workspace.bind fun workspace =>
      workspace.byName (Specifier.packageName specifier) with
  | none => rfl
  | some package => simp only [List.map_cons, List.map_nil, Attempt.opened]

theorem packageAttempts_opened (directory : Path) (config : Option ProjectConfig) :
    loader.packageAttempts s.opened directory config specifier
      = (loader.packageAttempts s directory config specifier).map Attempt.opened := by
  have hroot : s.opened.root = s.root := rfl
  unfold packageAttempts
  rw [hroot]
  cases loader.manifestFor s.root directory with
  | none => rfl
  | some manifest =>
      simp only
      split
      · rfl
      · simp only [List.map_cons, List.map_nil, Attempt.opened]

/-- A boundary does not change where is looked. -/
theorem trials_opened : loader.trials s.opened file specifier
    = (loader.trials s file specifier).map Attempt.opened := by
  have hroot : s.opened.root = s.root := rfl
  unfold trials
  split
  · rfl
  · split
    · simp only [List.map_cons, List.map_nil, relativeAttempt, Attempt.opened, hroot]
    · unfold attempts bareAttempts
      rw [hroot]
      generalize loader.configFor s.root file.directory = config
      rw [packageAttempts_opened, workspaceAttempts_opened]
      cases config with
      | none => simp only [List.nil_append, List.map_append]
      | some config =>
          simp only [aliasAttempts, baseAttempts, List.map_append, List.map_map,
            Function.comp_def, Attempt.opened]

/-! ## The order of the rules -/

theorem rank_of_mem_aliasAttempts {config : ProjectConfig} {attempt : Attempt}
    (h : attempt ∈ aliasAttempts s config specifier) : attempt.rule.rank = 1 := by
  obtain ⟨candidate, -, rfl⟩ := List.mem_map.1 h
  rfl

theorem rank_of_mem_baseAttempts {config : ProjectConfig} {attempt : Attempt}
    (h : attempt ∈ baseAttempts s config specifier) : attempt.rule.rank = 2 := by
  obtain ⟨base, -, rfl⟩ := List.mem_map.1 h
  rfl

theorem rank_of_mem_packageAttempts {directory : Path} {config : Option ProjectConfig}
    {attempt : Attempt} (h : attempt ∈ loader.packageAttempts s directory config specifier) :
    attempt.rule.rank = 3 ∧ attempt.surroundings = s := by
  unfold packageAttempts at h
  split at h
  · cases h
  · split at h
    · cases h
    · obtain rfl := List.mem_singleton.1 h
      exact ⟨rfl, rfl⟩

/-- The last rule, and the one that looks within other surroundings. -/
theorem mem_workspaceAttempts {attempt : Attempt}
    (h : attempt ∈ loader.workspaceAttempts s specifier) : ∃ package,
      (s.workspace.bind fun w => w.byName (Specifier.packageName specifier)) = some package ∧
        attempt.rule = .workspace package.name ∧ attempt.surroundings = s.inside package := by
  unfold workspaceAttempts at h
  simp only at h
  split at h
  · cases h
  · rename_i package hpackage
    obtain rfl := List.mem_singleton.1 h
    exact ⟨package, hpackage, rfl, rfl⟩

theorem sorted_of_rank {attempts : List Attempt} {n : Nat}
    (h : ∀ attempt ∈ attempts, attempt.rule.rank = n) :
    attempts.Pairwise fun a b => a.rule.rank ≤ b.rule.rank := by
  refine List.pairwise_of_forall_mem_list fun a ha b hb => ?_
  have := h a ha
  have := h b hb
  omega

/-- Attempts are made in the order of their rules. -/
theorem trials_sorted :
    (loader.trials s file specifier).Pairwise fun a b => a.rule.rank ≤ b.rule.rank := by
  have hpackage : ∀ directory config,
      ∀ attempt ∈ loader.packageAttempts s directory config specifier, attempt.rule.rank = 3 :=
    fun _ _ _ h => (rank_of_mem_packageAttempts h).1
  have hworkspace : ∀ attempt ∈ loader.workspaceAttempts s specifier, attempt.rule.rank = 4 := by
    intro attempt h
    obtain ⟨package, -, hrule, -⟩ := mem_workspaceAttempts h
    rw [hrule]
    rfl
  have hothers : ∀ directory config, (loader.packageAttempts s directory config specifier
      ++ loader.workspaceAttempts s specifier).Pairwise fun a b => a.rule.rank ≤ b.rule.rank := by
    intro directory config
    refine List.pairwise_append.2 ⟨sorted_of_rank (hpackage _ _), sorted_of_rank hworkspace, ?_⟩
    intro a ha b hb
    have := hpackage _ _ a ha
    have := hworkspace b hb
    omega
  unfold trials
  split
  · exact .nil
  · split
    · exact List.pairwise_singleton _ _
    · unfold attempts bareAttempts
      generalize loader.configFor s.root file.directory = config
      cases config with
      | none =>
          simp only [List.nil_append]
          exact hothers file.directory none
      | some config =>
          simp only
          have hconfigured : (aliasAttempts s config specifier
              ++ baseAttempts s config specifier).Pairwise
                fun a b => a.rule.rank ≤ b.rule.rank := by
            refine List.pairwise_append.2 ⟨sorted_of_rank fun _ => rank_of_mem_aliasAttempts,
              sorted_of_rank fun _ => rank_of_mem_baseAttempts, fun a ha b hb => ?_⟩
            have := rank_of_mem_aliasAttempts ha
            have := rank_of_mem_baseAttempts hb
            omega
          refine List.pairwise_append.2 ⟨hconfigured, hothers _ _, fun a ha b hb => ?_⟩
          have hlow : a.rule.rank ≤ 2 := by
            rcases List.mem_append.1 ha with ha | ha
            · have := rank_of_mem_aliasAttempts ha
              omega
            · have := rank_of_mem_baseAttempts ha
              omega
          have hhigh : 3 ≤ b.rule.rank := by
            rcases List.mem_append.1 hb with hb | hb
            · have := hpackage _ _ b hb
              omega
            · have := hworkspace b hb
              omega
          omega

/-- Only the rule of the workspace looks within other surroundings. -/
theorem mem_trials_cases {attempt : Attempt} (h : attempt ∈ loader.trials s file specifier) :
    (attempt.surroundings = s ∧ ∀ name, attempt.rule ≠ .workspace name) ∨ ∃ package,
      (s.workspace.bind fun w => w.byName (Specifier.packageName specifier)) = some package ∧
        attempt.rule = .workspace package.name ∧ attempt.surroundings = s.inside package := by
  have hothers : attempt.surroundings = s → attempt.rule.rank ≤ 3 →
      attempt.surroundings = s ∧ ∀ name, attempt.rule ≠ .workspace name := by
    refine fun hs hrank => ⟨hs, fun name hrule => ?_⟩
    rw [hrule] at hrank
    exact absurd hrank (by simp [Rule.rank])
  unfold trials at h
  split at h
  · cases h
  · split at h
    · obtain rfl := List.mem_singleton.1 h
      exact .inl (hothers rfl (Nat.zero_le _))
    · rcases List.mem_append.1 h with h | h
      · generalize loader.configFor s.root file.directory = config at h
        cases config with
        | none => cases h
        | some config =>
            rcases List.mem_append.1 h with h | h
            · have hrank := rank_of_mem_aliasAttempts h
              obtain ⟨candidate, -, rfl⟩ := List.mem_map.1 h
              exact .inl (hothers rfl (by omega))
            · have hrank := rank_of_mem_baseAttempts h
              obtain ⟨base, -, rfl⟩ := List.mem_map.1 h
              exact .inl (hothers rfl (by omega))
      · rcases List.mem_append.1 h with h | h
        · obtain ⟨hrank, hs⟩ := rank_of_mem_packageAttempts h
          exact .inl (hothers hs (by omega))
        · exact .inr (mem_workspaceAttempts h)

/-- What lies where the boundary lets it lie may be found by the attempt of its rule. -/
theorem permits_of_liesWithin {boundary : Path} (hboundary : s.boundary = some boundary)
    {attempt : Attempt} (hmem : attempt ∈ loader.trials s file specifier) {d : LocalDependency}
    (hrule : d.rule = attempt.rule) (h : d.LiesWithin s.workspace boundary) :
    attempt.surroundings.permits d.path = true := by
  unfold LocalDependency.LiesWithin at h
  rcases mem_trials_cases hmem with ⟨hs, hne⟩ | ⟨package, hpackage, hname, hs⟩
  · split at h
    · rename_i name hworkspace
      exact absurd (hrule.symm.trans hworkspace) (hne name)
    · rw [hs, Surroundings.permits, hboundary]
      exact h
  · rw [hrule, hname] at h
    obtain ⟨other, hother, hunder⟩ := h
    have hsame : other = package := by
      obtain ⟨w, hw, hbyName⟩ := Option.bind_eq_some_iff.1 hpackage
      rw [Workspace.name_of_byName hbyName, hpackage] at hother
      exact (Option.some.inj hother).symm
    rw [hs, Surroundings.permits, Surroundings.inside, hboundary]
    simpa [hsame] using hunder

/-! ## With and without a boundary -/

theorem findSome?_opened_eq_none (fixed : loader.Fixed) {attempts : List Attempt}
    (h : (attempts.map Attempt.opened).findSome? (loader.outcome specifier) = none) :
    attempts.findSome? (loader.outcome specifier) = none := by
  rw [findSome?_outcome_eq_none_iff fixed specifier] at h ⊢
  intro attempt hattempt
  exact finds_of_opened_eq_none (h _ (List.mem_map_of_mem hattempt))

/-- A file that is found without a boundary and lies where it may is found with one. -/
theorem findSome?_of_opened (fixed : loader.Fixed) {attempts : List Attempt} {d : LocalDependency}
    (h : (attempts.map Attempt.opened).findSome? (loader.outcome specifier) = some d)
    (hpermits : ∀ attempt ∈ attempts, d.rule = attempt.rule →
      attempt.surroundings.permits d.path = true) :
    attempts.findSome? (loader.outcome specifier) = some d := by
  induction attempts with
  | nil => cases h
  | cons attempt rest ih =>
      rw [List.map_cons, List.findSome?_cons, outcome_eq fixed] at h
      rw [List.findSome?_cons, outcome_eq fixed]
      cases hopened : loader.finds attempt.opened with
      | none =>
          rw [hopened] at h
          rw [finds_of_opened_eq_none hopened]
          exact ih h fun other hother => hpermits other (List.mem_cons_of_mem _ hother)
      | some path =>
          -- The boundary is asked about this one file only: what is listed before it is not there.
          rw [hopened] at h
          obtain rfl : ⟨specifier, path, attempt.opened.rule⟩ = d := Option.some.inj h
          rw [finds_of_opened hopened (hpermits attempt List.mem_cons_self rfl)]
          rfl

/-- What is found with a boundary is found without one, or something is found earlier. -/
theorem findSome?_opened_of_some (fixed : loader.Fixed) {attempts : List Attempt}
    (hsorted : attempts.Pairwise fun a b => a.rule.rank ≤ b.rule.rank) {d : LocalDependency}
    (h : attempts.findSome? (loader.outcome specifier) = some d) :
    ∃ e, (attempts.map Attempt.opened).findSome? (loader.outcome specifier) = some e ∧
      e.rule.rank ≤ d.rule.rank := by
  induction attempts with
  | nil => cases h
  | cons attempt rest ih =>
      obtain ⟨hfirst, hsorted⟩ := List.pairwise_cons.1 hsorted
      rw [List.map_cons, List.findSome?_cons, outcome_eq fixed]
      cases hopened : loader.finds attempt.opened with
      | some path =>
          -- Without the boundary this attempt ends the search, and no later one has a lower rank.
          refine ⟨⟨specifier, path, attempt.rule⟩, rfl, ?_⟩
          obtain ⟨found, hfound, houtcome⟩ := List.exists_of_findSome?_eq_some h
          rw [outcome_eq fixed] at houtcome
          obtain ⟨other, -, rfl⟩ := Option.map_eq_some_iff.1 houtcome
          rcases List.mem_cons.1 hfound with rfl | hfound
          · exact Nat.le_refl _
          · exact hfirst found hfound
      | none =>
          rw [List.findSome?_cons, outcome_eq fixed, finds_of_opened_eq_none hopened] at h
          exact ih hsorted h

/-- What a specifier means with a boundary, given what it means without one. -/
theorem meaning_restricted (fixed : loader.Fixed) {boundary : Path}
    (hboundary : s.boundary = some boundary) (file : SourceFile) (specifier : String) :
    (∀ text, loader.meaning s.opened file specifier = .external text →
      loader.meaning s file specifier = .external text) ∧
    (∀ d, loader.meaning s.opened file specifier = .missing d →
      loader.meaning s file specifier = .missing d) ∧
    (∀ d, loader.meaning s.opened file specifier = .localFile d →
      d.LiesWithin s.workspace boundary → loader.meaning s file specifier = .localFile d) ∧
    ∀ d, loader.meaning s file specifier = .localFile d → ∃ e,
      loader.meaning s.opened file specifier = .localFile e ∧ e.rule.rank ≤ d.rule.rank := by
  have hunfound : ∀ d, unfound file specifier ≠ .localFile d := by
    intro d
    unfold unfound
    split <;> simp
  rw [meaning_eq_trials, meaning_eq_trials, trials_opened]
  cases hopened : ((loader.trials s file specifier).map Attempt.opened).findSome?
      (loader.outcome specifier) with
  | none =>
      rw [findSome?_opened_eq_none fixed hopened]
      exact ⟨fun _ h => h, fun _ h => h, fun d h => absurd h (hunfound d),
        fun d h => absurd h (hunfound d)⟩
  | some d =>
      refine ⟨fun _ h => (by cases h), fun _ h => (by cases h), fun e h hlies => ?_,
        fun e h => ?_⟩
      · cases h
        have hpermits : ∀ attempt ∈ loader.trials s file specifier, d.rule = attempt.rule →
            attempt.surroundings.permits d.path = true :=
          fun attempt hattempt hrule => permits_of_liesWithin hboundary hattempt hrule hlies
        rw [findSome?_of_opened fixed hopened hpermits]
        rfl
      · cases hheld : (loader.trials s file specifier).findSome? (loader.outcome specifier) with
        | none =>
            rw [hheld] at h
            exact absurd h (hunfound e)
        | some held =>
            rw [hheld] at h
            cases h
            obtain ⟨first, hfirst, hrank⟩ := findSome?_opened_of_some fixed trials_sorted hheld
            rw [hopened] at hfirst
            cases hfirst
            exact ⟨d, rfl, hrank⟩

end

end Loader

/-! ## Classifiers with and without a boundary -/

namespace Loader

variable {loader : Loader Id}

/-- A boundary only takes local files away: what is external or missing without it stays so, and a
local file stays if it lies where the boundary lets it lie. What is found with a boundary is found
without it too, by the same rule or by an earlier one. -/
theorem classify_restricted (fixed : loader.Fixed) (root : Option Path)
    (workspace : Option Workspace) (boundary : Path) (past past' : List Question)
    (file : SourceFile) (specifier : String) :
    let free := Knowledge.valueAfter loader root past
      (Classifier.classify loader ⟨root, workspace, none⟩ file specifier)
    let held := Knowledge.valueAfter loader root past'
      (Classifier.classify loader ⟨root, workspace, some boundary⟩ file specifier)
    (∀ text, free = .external text → held = free) ∧
    (∀ d, free = .missing d → held = free) ∧
    (∀ d, free = .localFile d → d.LiesWithin workspace boundary → held.Alike free) ∧
    ∀ d, held = .localFile d → ∃ e, free = .localFile e ∧ e.rule.rank ≤ d.rule.rank := by
  intro free held
  let s : Surroundings := ⟨root, workspace, some boundary⟩
  have hfree : free.Alike (loader.meaning s.opened file specifier) :=
    Knowledge.valueAfter_classify fixed past file specifier
  have hheld : held.Alike (loader.meaning s file specifier) :=
    Knowledge.valueAfter_classify fixed past' file specifier
  obtain ⟨hexternal, hmissing, hlocal, hearlier⟩ :=
    meaning_restricted fixed (s := s) rfl file specifier
  refine ⟨fun text h => ?_, fun d h => ?_, fun d h hlies => ?_, fun d h => ?_⟩
  · rw [h] at hfree ⊢
    rw [hexternal text hfree.symm.of_external] at hheld
    exact hheld.of_external
  · rw [h] at hfree ⊢
    rw [hmissing d hfree.symm.of_missing] at hheld
    exact hheld.of_missing
  · rw [h] at hfree ⊢
    obtain ⟨e, hmeaning, he⟩ := hfree.symm.exists_localFile
    rw [hlocal e hmeaning (hlies.congr he.symm)] at hheld
    have hback : (Classification.localFile e).Alike (.localFile d) := he
    exact hheld.trans hback
  · rw [h] at hheld
    obtain ⟨e, hmeaning, he⟩ := hheld.symm.exists_localFile
    obtain ⟨first, hfirst, hrank⟩ := hearlier e hmeaning
    rw [hfirst] at hfree
    obtain ⟨f, hf, hff⟩ := hfree.exists_localFile
    have hrule : e.rule = d.rule := he.rule
    exact ⟨f, hf, by rw [hff.rule, ← hrule]; exact hrank⟩

/-- A project where an alias and the base directory both have a file for one specifier. -/
def splitProject : Loader Id :=
  .ofTexts [
    ([.root, .name "p", .name "tsconfig.json"],
      "\x7b\"compilerOptions\":\x7b\"baseUrl\":\"src\","
        ++ "\"paths\":\x7b\"x/*\":[\"../gen/*\"]\x7d\x7d\x7d"),
    ([.root, .name "p", .name "gen", .name "y.ts"], ""),
    ([.root, .name "p", .name "src", .name "a.ts"], ""),
    ([.root, .name "p", .name "src", .name "x", .name "y.ts"], "")]

def splitImporter : SourceFile := ⟨⟨"/p/src/a.ts"⟩, ""⟩

theorem splitProject_meaning :
    splitProject.meaning {} splitImporter "x/y"
        = .localFile ⟨"x/y", ⟨"/p/gen/y.ts"⟩, .aliased "x/*" "../gen/*"⟩ ∧
      splitProject.meaning ⟨none, none, some ⟨"/p/src"⟩⟩ splitImporter "x/y"
        = .localFile ⟨"x/y", ⟨"/p/src/x/y.ts"⟩, .base⟩ := by
  decide +kernel

theorem classify_restricted_split :
    splitProject.Fixed ∧
      (Knowledge.valueAfter splitProject none [.probe ⟨"/p/gen/./y.ts"⟩]
        (Classifier.classify splitProject ⟨none, none, some ⟨"/p"⟩⟩ splitImporter "x/y")).Alike
          (.localFile ⟨"x/y", ⟨"/p/gen/y.ts"⟩, .aliased "x/*" "../gen/*"⟩) ∧
      ∃ held free,
        Knowledge.valueAfter splitProject none []
          (Classifier.classify splitProject ⟨none, none, some ⟨"/p/src"⟩⟩ splitImporter "x/y")
            = .localFile held ∧ held.rule = .base ∧
        Knowledge.valueAfter splitProject none []
          (Classifier.classify splitProject {} splitImporter "x/y") = .localFile free ∧
        free.rule.rank ≤ held.rule.rank := by
  have fixed : splitProject.Fixed := ofTexts_fixed _
  have hfree := Knowledge.valueAfter_classify fixed (s := {}) [] splitImporter "x/y"
  have hheld := Knowledge.valueAfter_classify fixed (s := ⟨none, none, some ⟨"/p/src"⟩⟩) []
    splitImporter "x/y"
  rw [splitProject_meaning.1] at hfree
  rw [splitProject_meaning.2] at hheld
  obtain ⟨free, hfree, hlike⟩ := hfree.exists_localFile
  obtain ⟨held, hheld, hbase⟩ := hheld.exists_localFile
  refine ⟨fixed, ?_, held, ?_⟩
  · have hlies : LocalDependency.LiesWithin
        ⟨"x/y", ⟨"/p/gen/y.ts"⟩, .aliased "x/*" "../gen/*"⟩ none ⟨"/p"⟩ := by
      show Path.isUnder _ _ = true
      decide +kernel
    have hsame := (classify_restricted fixed none none ⟨"/p"⟩ [] [.probe ⟨"/p/gen/./y.ts"⟩]
      splitImporter "x/y").2.2.1 free hfree (hlies.congr hlike.symm)
    rw [hfree] at hsame
    exact hsame.trans hlike
  · obtain ⟨e, he, hrank⟩ := (classify_restricted fixed none none ⟨"/p/src"⟩ [] [] splitImporter
      "x/y").2.2.2 held hheld
    rw [hheld]
    exact ⟨e, rfl, hbase.rule, he, hrank⟩

end Loader

end ModuleTrace
