import ModuleTrace.FileSystem.Tree
import ModuleTrace.Proofs.Path.Parts
import ModuleTrace.Workspace.Detection

/-!
# What speaks for a package manager

A sign is what one of the sources has to say for one manager, at some distance from the directory
that is asked about. Signs are ordered by their source, then by their distance, then by their
manager. The least one decides, and only where there is none does the default.
-/

namespace ModuleTrace

namespace Path

theorem firstThat_isSome {α : Type} (test : Path → Id Bool) (place : α → Path) (as : List α) :
    (firstThat test (as.map place)).run.isSome = as.any fun a => (test (place a)).run := by
  induction as with
  | nil => rfl
  | cons a as ih =>
      rw [List.map_cons, firstThat, Id.run_bind, List.any_cons]
      cases (test (place a)).run with
      | true => rfl
      | false => exact ih

end Path

/-! ## Signs -/

def PackageManager.rank : PackageManager → Nat
  | .npm => 0
  | .pnpm => 1
  | .yarn => 2
  | .deno => 3
  | .bun => 4

def DetectionSource.rank : DetectionSource → Nat
  | .userAgent => 0
  | .execPath => 1
  | .lockfile => 2
  | .configFile => 3
  | .executable => 4
  | .standard => 5

/-- What a source has to say for a manager, so many directories up. -/
structure Sign where
  source : DetectionSource
  distance : Nat
  manager : PackageManager
  deriving DecidableEq, Repr

namespace Sign

/-- The user agent is the manager's command and a slash, with anything behind it. -/
def Announces (agent : String) (manager : PackageManager) : Prop :=
  ∃ rest, agent = manager.command ++ "/" ++ rest

/-- But for its case, the script has the manager's command for a name, or a name that goes on
behind the command with a dot or a dash. -/
def Runs (path : Path) (manager : PackageManager) : Prop :=
  ∃ name, path.name? = some name ∧
    (Affix.lower name = manager.command ∨
      (∃ rest, Affix.lower name = manager.command ++ "." ++ rest) ∨
      ∃ rest, Affix.lower name = manager.command ++ "-" ++ rest)

/-- A sign is there for a directory. -/
inductive Holds (fs : FileSystem Id) (finds : String → Id Bool) (environment : Environment)
    (directory : Path) : Sign → Prop
  | userAgent {agent : String} {manager : PackageManager}
      (told : environment.userAgent = some agent) (announces : Announces agent manager) :
      Holds fs finds environment directory ⟨.userAgent, 0, manager⟩
  | execPath {path : Path} {manager : PackageManager}
      (told : environment.execPath = some path) (runs : Runs path manager) :
      Holds fs finds environment directory ⟨.execPath, 0, manager⟩
  | lockfile {n : Nat} {ancestor : Path} {manager : PackageManager} {name : String}
      (above : directory.up? n = some ancestor) (named : name ∈ manager.lockfiles)
      (file : (fs.isFile (ancestor / name)).run = true) :
      Holds fs finds environment directory ⟨.lockfile, n, manager⟩
  | configFile {n : Nat} {ancestor : Path} {manager : PackageManager} {name : String}
      (above : directory.up? n = some ancestor) (named : name ∈ manager.configFiles)
      (file : (fs.isFile (ancestor / name)).run = true) :
      Holds fs finds environment directory ⟨.configFile, n, manager⟩
  | executable {manager : PackageManager} (found : (finds manager.command).run = true) :
      Holds fs finds environment directory ⟨.executable, 0, manager⟩

/-- By source, then by distance, then by manager. -/
def Before (s t : Sign) : Prop :=
  s.source.rank < t.source.rank ∨ s.source = t.source ∧
    (s.distance < t.distance ∨ s.distance = t.distance ∧ s.manager.rank < t.manager.rank)

structure Least (fs : FileSystem Id) (finds : String → Id Bool) (environment : Environment)
    (directory : Path) (s : Sign) : Prop where
  holds : s.Holds fs finds environment directory
  first : ∀ t, t.Holds fs finds environment directory → t = s ∨ s.Before t

theorem Before.asymm {s t : Sign} (h : s.Before t) : ¬ t.Before s := by
  unfold Before at h ⊢
  intro h'
  rcases h with h | ⟨hsource, h⟩ <;> rcases h' with h' | ⟨hsource', h'⟩
  · omega
  · rw [hsource'] at h
    omega
  · rw [hsource] at h'
    omega
  · omega

section

variable {fs : FileSystem Id} {finds : String → Id Bool} {environment : Environment}
  {directory : Path} {s t : Sign}

theorem Least.unique (hs : s.Least fs finds environment directory)
    (ht : t.Least fs finds environment directory) : s = t := by
  rcases hs.first t ht.holds with rfl | h
  · rfl
  · rcases ht.first s hs.holds with rfl | h'
    · rfl
    · exact absurd h' h.asymm

theorem Least.rank_le (hs : s.Least fs finds environment directory)
    (ht : t.Holds fs finds environment directory) : s.source.rank ≤ t.source.rank := by
  rcases hs.first t ht with rfl | hlt | ⟨hsource, -⟩
  · exact Nat.le_refl _
  · exact Nat.le_of_lt hlt
  · exact Nat.le_of_eq (congrArg DetectionSource.rank hsource)

theorem Least.distance_le (hs : s.Least fs finds environment directory)
    (ht : t.Holds fs finds environment directory) (hsource : s.source = t.source) :
    s.distance ≤ t.distance := by
  rcases hs.first t ht with rfl | hlt | ⟨-, hlt | ⟨heq, -⟩⟩
  · exact Nat.le_refl _
  · exact absurd hlt (by simp [hsource])
  · exact Nat.le_of_lt hlt
  · exact Nat.le_of_eq heq

end

end Sign

namespace Detection

/-! ## What stands first -/

/-- Where a list is searched, something is found at the first place that has an answer. -/
theorem exists_first {α β : Type} {f : α → Option β} {as : List α} {b : β}
    (h : as.findSome? f = some b) :
    ∃ (n : Nat) (a : α), as[n]? = some a ∧ f a = some b ∧
      ∀ (k : Nat) (other : α), as[k]? = some other → f other ≠ none → n ≤ k := by
  obtain ⟨front, a, rest, rfl, ha, hfront⟩ := List.findSome?_eq_some_iff.1 h
  refine ⟨front.length, a, by simp, ha, fun k other hk hne => Nat.le_of_not_lt fun hlt => hne ?_⟩
  rw [List.getElem?_append_left hlt] at hk
  exact hfront other (List.mem_of_getElem? hk)

theorem getElem?_eq_some_iff_of_nodup {α : Type} {as : List α} (hnodup : as.Nodup) {a : α}
    {k : Nat} (hk : as[k]? = some a) {n : Nat} : as[n]? = some a ↔ n = k := by
  constructor
  · intro h
    have hlt := (List.getElem?_eq_some_iff.1 h).1
    exact (List.getElem?_inj hlt hnodup).1 (h.trans hk.symm)
  · rintro rfl
    exact hk

theorem mem_priority (manager : PackageManager) : manager ∈ PackageManager.priority := by
  cases manager <;> decide

theorem getElem?_priority_iff {n : Nat} {manager : PackageManager} :
    PackageManager.priority[n]? = some manager ↔ n = manager.rank :=
  getElem?_eq_some_iff_of_nodup (by decide) (by cases manager <;> rfl)

theorem mem_sources_iff {source : DetectionSource} : source ∈ sources ↔ source ≠ .standard := by
  cases source <;> decide

theorem getElem?_sources_iff {source : DetectionSource} (hne : source ≠ .standard) {n : Nat} :
    sources[n]? = some source ↔ n = source.rank := by
  refine getElem?_eq_some_iff_of_nodup (by decide) ?_
  cases source with
  | standard => exact absurd rfl hne
  | _ => rfl

/-- Of the managers that pass a test, the one that is found is tried first. -/
theorem least_of_find? {test : PackageManager → Bool} {manager : PackageManager}
    (h : PackageManager.priority.find? test = some manager) :
    test manager = true ∧
      ∀ other, test other = true → other = manager ∨ manager.rank < other.rank := by
  refine ⟨List.find?_some h, fun other hother => ?_⟩
  rw [List.find?_eq_findSome?_guard] at h
  obtain ⟨n, found, hn, hfound, hfirst⟩ := exists_first h
  obtain ⟨rfl, -⟩ := Option.guard_eq_some_iff.1 hfound
  obtain rfl := getElem?_priority_iff.1 hn
  have hother' := getElem?_priority_iff.2 (rfl : other.rank = other.rank)
  rcases Nat.eq_or_lt_of_le (hfirst _ other hother' (by simp [hother])) with heq | hlt
  · rw [← heq, hn] at hother'
    exact .inl (Option.some.inj hother').symm
  · exact .inr hlt

theorem getElem?_toList_map {α β : Type} {o : Option α} {f : α → β} {n : Nat} {b : β} :
    (o.toList.map f)[n]? = some b ↔ n = 0 ∧ ∃ a, o = some a ∧ f a = b := by
  cases o <;> cases n <;> simp

theorem getElem?_ancestors_map {β : Type} {directory : Path} {f : Path → β} {n : Nat} {b : β} :
    (directory.ancestors.map f)[n]? = some b ↔
      ∃ ancestor, directory.up? n = some ancestor ∧ f ancestor = b := by
  rw [List.getElem?_map, Path.getElem?_ancestors, Option.map_eq_some_iff]

/-! ## Questions of a source -/

/-- Of one source: for each distance, the managers that something speaks for there. -/
def levels (fs : FileSystem Id) (finds : String → Id Bool) (environment : Environment)
    (directory : Path) : DetectionSource → List (PackageManager → Bool)
  | .userAgent => environment.userAgent.toList.map fun agent manager =>
      Affix.begins (manager.command ++ "/") agent
  | .execPath => (environment.execPath.bind Path.name?).toList.map fun name =>
      namesScript (Affix.lower name)
  | .lockfile => directory.ancestors.map fun ancestor manager =>
      manager.lockfiles.any fun name => (fs.isFile (ancestor / name)).run
  | .configFile => directory.ancestors.map fun ancestor manager =>
      manager.configFiles.any fun name => (fs.isFile (ancestor / name)).run
  | .executable => [fun manager => (finds manager.command).run]
  | .standard => []

theorem ofUserAgent?_eq_some_iff {agent : String} {manager : PackageManager} :
    ofUserAgent? agent = some manager ↔ Sign.Announces agent manager := by
  unfold ofUserAgent?
  constructor
  · intro h
    simp only at h
    generalize hname : List.takeWhile _ agent.toList = name at h
    have hsplit := List.prefix_iff_eq_append.1 (hname ▸ List.takeWhile_prefix _)
    split at h
    · rename_i hslash
      obtain ⟨rest, hrest⟩ := List.head?_eq_some_iff.1 hslash
      have hcommand : manager.command = String.ofList name := by
        simpa using List.find?_some h
      refine ⟨String.ofList rest, String.toList_inj.1 ?_⟩
      rw [← hsplit, hrest, hcommand]
      simp
    · cases h
  · rintro ⟨rest, rfl⟩
    have hsplit : (manager.command ++ "/" ++ rest).toList
        = manager.command.toList ++ '/' :: rest.toList := by
      simp
    rw [hsplit, List.takeWhile_append_of_pos, List.takeWhile_cons_of_neg, List.append_nil]
    · simp [PackageManager.ofCommand?_command]
    · decide
    · exact List.all_eq_true.1 (by cases manager <;> decide)

theorem namesScript_iff {name : String} {manager : PackageManager} :
    namesScript name manager = true ↔ name = manager.command ∨
      (∃ rest, name = manager.command ++ "." ++ rest) ∨
      ∃ rest, name = manager.command ++ "-" ++ rest := by
  simp only [namesScript, Bool.or_eq_true, decide_eq_true_eq, Affix.begins_iff, or_assoc]

section

variable {fs : FileSystem Id} {finds : String → Id Bool} {environment : Environment}
  {directory : Path}

theorem holds_iff {s : Sign} : s.Holds fs finds environment directory ↔
    ∃ test, (levels fs finds environment directory s.source)[s.distance]? = some test ∧
      test s.manager = true := by
  obtain ⟨source, n, manager⟩ := s
  constructor
  · rintro (⟨told, rest, rfl⟩ | ⟨told, name, hname, hruns⟩ | ⟨above, named, file⟩ |
      ⟨above, named, file⟩ | ⟨found⟩)
    · exact ⟨_, getElem?_toList_map.2 ⟨rfl, _, told, rfl⟩, Affix.begins_iff.2 ⟨rest, rfl⟩⟩
    · exact ⟨_, getElem?_toList_map.2 ⟨rfl, _, Option.bind_eq_some_iff.2 ⟨_, told, hname⟩, rfl⟩,
        namesScript_iff.2 hruns⟩
    · exact ⟨_, getElem?_ancestors_map.2 ⟨_, above, rfl⟩, List.any_eq_true.2 ⟨_, named, file⟩⟩
    · exact ⟨_, getElem?_ancestors_map.2 ⟨_, above, rfl⟩, List.any_eq_true.2 ⟨_, named, file⟩⟩
    · exact ⟨_, rfl, found⟩
  · rintro ⟨test, hlevel, htest⟩
    cases source with
    | userAgent =>
        obtain ⟨rfl, agent, hagent, rfl⟩ := getElem?_toList_map.1 hlevel
        exact .userAgent hagent (Affix.begins_iff.1 htest)
    | execPath =>
        obtain ⟨rfl, name, hname, rfl⟩ := getElem?_toList_map.1 hlevel
        obtain ⟨path, hpath, hname⟩ := Option.bind_eq_some_iff.1 hname
        exact .execPath hpath ⟨name, hname, namesScript_iff.1 htest⟩
    | lockfile =>
        obtain ⟨ancestor, habove, rfl⟩ := getElem?_ancestors_map.1 hlevel
        obtain ⟨name, hname, hfile⟩ := List.any_eq_true.1 htest
        exact .lockfile habove hname hfile
    | configFile =>
        obtain ⟨ancestor, habove, rfl⟩ := getElem?_ancestors_map.1 hlevel
        obtain ⟨name, hname, hfile⟩ := List.any_eq_true.1 htest
        exact .configFile habove hname hfile
    | executable =>
        cases n with
        | zero =>
            cases hlevel
            exact .executable htest
        | succ n => cases hlevel
    | standard => cases hlevel

theorem inDirectory?_eq (names : PackageManager → List String) (d : Path)
    (managers : List PackageManager) :
    (inDirectory? fs names d managers).run
      = managers.find? fun manager =>
          (names manager).any fun name => (fs.isFile (d / name)).run := by
  induction managers with
  | nil => rfl
  | cons manager managers ih =>
      rw [inDirectory?, Id.run_bind, List.find?_cons, ← Path.firstThat_isSome]
      cases (Path.firstThat fs.isFile ((names manager).map (d / ·))).run with
      | none => exact ih
      | some path => rfl

theorem inDirectories?_eq (names : PackageManager → List String) (directories : List Path) :
    (inDirectories? fs names directories).run = directories.findSome? fun d =>
      PackageManager.priority.find? fun manager =>
        (names manager).any fun name => (fs.isFile (d / name)).run := by
  induction directories with
  | nil => rfl
  | cons d directories ih =>
      rw [inDirectories?, Id.run_bind, inDirectory?_eq, List.findSome?_cons]
      cases PackageManager.priority.find? fun manager =>
        (names manager).any fun name => (fs.isFile (d / name)).run with
      | none => exact ih
      | some manager => rfl

theorem ofExecutables?_eq (managers : List PackageManager) :
    (ofExecutables? finds managers).run
      = managers.find? fun manager => (finds manager.command).run := by
  induction managers with
  | nil => rfl
  | cons manager managers ih =>
      rw [ofExecutables?, Id.run_bind, List.find?_cons]
      cases (finds manager.command).run with
      | false => exact ih
      | true => rfl

/-- A program is found in the directories of the search path. -/
theorem finds_iff {command : String} : (Detection.finds fs environment command).run = true ↔
    ∃ paths path, environment.searchPath = some paths ∧ path ∈ paths ∧
      (fs.isExecutable (path / command)).run = true := by
  unfold Detection.finds
  cases environment.searchPath with
  | none => simp
  | some paths => simp [Path.firstThat_isSome]

theorem find?_announced (agent : String) :
    PackageManager.priority.find? (fun manager => Affix.begins (manager.command ++ "/") agent)
      = ofUserAgent? agent := by
  have htest : (fun manager : PackageManager => Affix.begins (manager.command ++ "/") agent)
      = fun manager => decide (ofUserAgent? agent = some manager) := by
    funext manager
    rw [Bool.eq_iff_iff, Affix.begins_iff, decide_eq_true_eq, ofUserAgent?_eq_some_iff]
    rfl
  rw [htest]
  cases ofUserAgent? agent with
  | none => rfl
  | some manager => cases manager <;> rfl

theorem ask_eq {source : DetectionSource} (hne : source ≠ .standard) :
    (ask fs finds environment directory source).run
      = (levels fs finds environment directory source).findSome? fun test =>
          PackageManager.priority.find? test := by
  cases source with
  | userAgent =>
      rw [ask, levels]
      cases environment.userAgent with
      | none => rfl
      | some agent => simp [find?_announced]
  | execPath =>
      rw [ask, levels]
      cases environment.execPath with
      | none => rfl
      | some path =>
          rw [Option.bind_some, Option.bind_some, ofExecPath?]
          cases path.name? with
          | none => rfl
          | some name => simp
  | lockfile =>
      rw [ask, levels, inDirectories?_eq, List.findSome?_map]
      rfl
  | configFile =>
      rw [ask, levels, inDirectories?_eq, List.findSome?_map]
      rfl
  | executable =>
      rw [ask, levels, ofExecutables?_eq, List.findSome?_singleton]
  | standard => exact absurd rfl hne

theorem askAll_eq (asked : List DetectionSource) :
    (askAll fs finds environment directory asked).run
      = (asked.findSome? fun source =>
          (ask fs finds environment directory source).run.map fun manager =>
            (⟨manager, source⟩ : Detection)).getD ⟨.npm, .standard⟩ := by
  induction asked with
  | nil => rfl
  | cons source asked ih =>
      rw [askAll, Id.run_bind, List.findSome?_cons]
      cases (ask fs finds environment directory source).run with
      | none => exact ih
      | some manager => rfl

/-- A source answers with the nearest sign that it has, and of several equally near with that for
the manager which is tried first. -/
theorem holds_of_ask {source : DetectionSource} (hne : source ≠ .standard)
    {manager : PackageManager}
    (h : (ask fs finds environment directory source).run = some manager) :
    ∃ n, Sign.Holds fs finds environment directory ⟨source, n, manager⟩ ∧
      ∀ k other, Sign.Holds fs finds environment directory ⟨source, k, other⟩ →
        (⟨source, k, other⟩ : Sign) = ⟨source, n, manager⟩ ∨
          Sign.Before ⟨source, n, manager⟩ ⟨source, k, other⟩ := by
  rw [ask_eq hne] at h
  obtain ⟨n, test, hlevel, hfound, hfirst⟩ := exists_first h
  obtain ⟨htest, hleast⟩ := least_of_find? hfound
  refine ⟨n, holds_iff.2 ⟨test, hlevel, htest⟩, fun k other hother => ?_⟩
  obtain ⟨test', hlevel', htest'⟩ := holds_iff.1 hother
  have hle : n ≤ k := hfirst k test' hlevel' fun hnone => by
    simpa using List.find?_eq_none.1 hnone other (mem_priority other) htest'
  rcases Nat.eq_or_lt_of_le hle with rfl | hlt
  · obtain rfl : test' = test := Option.some.inj (hlevel'.symm.trans hlevel)
    rcases hleast other htest' with rfl | hrank
    · exact .inl rfl
    · exact .inr (.inr ⟨rfl, .inr ⟨rfl, hrank⟩⟩)
  · exact .inr (.inr ⟨rfl, .inl hlt⟩)

theorem not_holds_of_ask {source : DetectionSource} (hne : source ≠ .standard)
    (h : (ask fs finds environment directory source).run = none) (k : Nat)
    (manager : PackageManager) :
    ¬ Sign.Holds fs finds environment directory ⟨source, k, manager⟩ := by
  intro hholds
  obtain ⟨test, hlevel, htest⟩ := holds_iff.1 hholds
  rw [ask_eq hne, List.findSome?_eq_none_iff] at h
  have hnone := h test (List.mem_of_getElem? hlevel)
  exact List.find?_eq_none.1 hnone manager (mem_priority manager) htest

theorem source_ne {s : Sign} (h : s.Holds fs finds environment directory) :
    s.source ≠ .standard := by
  cases h <;> simp

theorem askAll_congr {told : Environment} {asked : List DetectionSource}
    (h : ∀ source ∈ asked,
      ask fs finds environment directory source = ask fs finds told directory source) :
    askAll fs finds environment directory asked = askAll fs finds told directory asked := by
  induction asked with
  | nil => rfl
  | cons source asked ih =>
      obtain ⟨hfirst, hrest⟩ := List.forall_mem_cons.1 h
      rw [askAll, askAll, hfirst, ih hrest]

end

/-- The manager is that of the least sign, or the default where there is no sign. -/
theorem detect_cases (fs : FileSystem Id) (finds : String → Id Bool) (environment : Environment)
    (directory : Path) :
    (∃ s, Sign.Least fs finds environment directory s ∧
      (detect fs environment directory finds).run = ⟨s.manager, s.source⟩) ∨
    (∀ s, ¬ Sign.Holds fs finds environment directory s) ∧
      (detect fs environment directory finds).run = ⟨.npm, .standard⟩ := by
  rw [detect, askAll_eq]
  cases hfound : sources.findSome? fun source =>
      (ask fs finds environment directory source).run.map fun manager =>
        (⟨manager, source⟩ : Detection) with
  | none =>
      refine .inr ⟨fun s hs => ?_, rfl⟩
      have hne := source_ne hs
      have hanswer := List.findSome?_eq_none_iff.1 hfound s.source (mem_sources_iff.2 hne)
      exact not_holds_of_ask hne (Option.map_eq_none_iff.1 hanswer) s.distance s.manager hs
  | some detection =>
      obtain ⟨i, source, hi, hanswer, hfirst⟩ := exists_first hfound
      obtain ⟨manager, hask, rfl⟩ := Option.map_eq_some_iff.1 hanswer
      have hne := mem_sources_iff.1 (List.mem_of_getElem? hi)
      obtain rfl := (getElem?_sources_iff hne).1 hi
      obtain ⟨n, hholds, hnearest⟩ := holds_of_ask hne hask
      refine .inl ⟨⟨source, n, manager⟩, ⟨hholds, fun t ht => ?_⟩, rfl⟩
      have hne' := source_ne ht
      have hplace := (getElem?_sources_iff hne').2 rfl
      -- A source that is asked before the one that answered has no sign.
      have hle := hfirst t.source.rank t.source hplace fun hnone =>
        not_holds_of_ask hne' (Option.map_eq_none_iff.1 hnone) t.distance t.manager ht
      rcases Nat.eq_or_lt_of_le hle with heq | hlt
      · rw [← heq, hi] at hplace
        obtain rfl := Option.some.inj hplace
        exact hnearest t.distance t.manager ht
      · exact .inr (.inl hlt)

/-- What the environment says of no manager is as good as nothing said. -/
theorem detect_unrecognized (fs : FileSystem Id) (finds : String → Id Bool)
    (environment : Environment) (directory : Path) :
    (∀ agent, (∀ manager, ¬ Sign.Announces agent manager) →
      detect fs { environment with userAgent := some agent } directory finds
        = detect fs { environment with userAgent := none } directory finds) ∧
    ∀ path, (∀ manager, ¬ Sign.Runs path manager) →
      detect fs { environment with execPath := some path } directory finds
        = detect fs { environment with execPath := none } directory finds := by
  constructor
  · intro agent hagent
    have hnone : ofUserAgent? agent = none :=
      Option.eq_none_iff_forall_ne_some.2 fun manager h =>
        hagent manager (ofUserAgent?_eq_some_iff.1 h)
    refine askAll_congr fun source _ => ?_
    cases source with
    | userAgent => simp [ask, hnone]
    | _ => rfl
  · intro path hpath
    have hnone : ofExecPath? path = none :=
      Option.eq_none_iff_forall_ne_some.2 fun manager h => by
        obtain ⟨name, hname, hfound⟩ := Option.bind_eq_some_iff.1 h
        exact hpath manager ⟨name, hname, namesScript_iff.1 (List.find?_some hfound)⟩
    refine askAll_congr fun source _ => ?_
    cases source with
    | execPath => simp [ask, hnone]
    | _ => rfl

/-- In every file system, and however programs are found, the manager of a directory is that of the
least sign: by source, then by distance, then by priority. It is the default exactly where there is
no sign. A user agent or a script of no known manager is no sign, a lockfile stands before every
configuration file, and the lockfile that decides is as near as any. By itself a machine finds a
program in the directories of its search path. -/
theorem detect_least (fs : FileSystem Id) (finds : String → Id Bool) (environment : Environment)
    (directory : Path) :
    (∀ s : Sign, s.Least fs finds environment directory →
      (detect fs environment directory finds).run = ⟨s.manager, s.source⟩) ∧
    ((∃ s : Sign, s.Holds fs finds environment directory) →
      ∃ s : Sign, s.Least fs finds environment directory) ∧
    ((detect fs environment directory finds).run = ⟨.npm, .standard⟩ ↔
      ∀ s : Sign, ¬ s.Holds fs finds environment directory) ∧
    (∀ agent, (∀ manager, ¬ Sign.Announces agent manager) →
      detect fs { environment with userAgent := some agent } directory finds
        = detect fs { environment with userAgent := none } directory finds) ∧
    (∀ path, (∀ manager, ¬ Sign.Runs path manager) →
      detect fs { environment with execPath := some path } directory finds
        = detect fs { environment with execPath := none } directory finds) ∧
    (∀ n manager, Sign.Holds fs finds environment directory ⟨.lockfile, n, manager⟩ →
      (detect fs environment directory finds).run.source ≠ .configFile ∧
      ((detect fs environment directory finds).run.source = .lockfile → ∃ k ≤ n,
        Sign.Holds fs finds environment directory
          ⟨.lockfile, k, (detect fs environment directory finds).run.manager⟩)) ∧
    ∀ command, (Detection.finds fs environment command).run = true ↔
      ∃ paths path, environment.searchPath = some paths ∧ path ∈ paths ∧
        (fs.isExecutable (path / command)).run = true := by
  obtain ⟨hagent, hpath⟩ := detect_unrecognized fs finds environment directory
  rcases detect_cases fs finds environment directory with ⟨s, hs, hrun⟩ | ⟨hnone, hrun⟩
  · rw [hrun]
    refine ⟨fun t ht => by rw [hs.unique ht], fun _ => ⟨s, hs⟩, ?_, hagent, hpath, ?_,
      fun _ => finds_iff⟩
    · refine ⟨fun h => ?_, fun h => absurd hs.holds (h s)⟩
      exact absurd (congrArg Detection.source h) (source_ne hs.holds)
    · intro n manager hlock
      refine ⟨fun hsource => ?_, fun hsource => ⟨s.distance, hs.distance_le hlock hsource, ?_⟩⟩
      · have hle : s.source.rank ≤ DetectionSource.lockfile.rank := hs.rank_le hlock
        rw [show s.source = .configFile from hsource] at hle
        exact absurd hle (by decide)
      · have hholds := hs.holds
        obtain ⟨source, distance, manager⟩ := s
        cases hsource
        exact hholds
  · rw [hrun]
    refine ⟨fun s hs => absurd hs.holds (hnone s), fun ⟨s, hs⟩ => absurd hs (hnone s),
      ⟨fun _ => hnone, fun _ => rfl⟩, hagent, hpath, fun n manager hlock => ?_,
      fun _ => finds_iff⟩
    exact absurd hlock (hnone _)

/-- Below a directory with a lockfile there is one with another, and below it one with a
configuration file. -/
def lockedFiles : FileSystem Id :=
  FileTree.fileSystem (.directory [("p", .directory [
    ("package-lock.json", .file (.ok "") false),
    ("sub", .directory [
      ("yarn.lock", .file (.ok "") false),
      ("app", .directory [("bunfig.toml", .file (.ok "") false)])])])]) ⟨"/"⟩

/-- Started by a program that is no manager. -/
def strangeEnvironment : Environment where
  userAgent := some "cnpm/1.0"
  execPath := some ⟨"/bin/node"⟩

def onlyBun (command : String) : Id Bool :=
  pure (decide (command = "bun"))

theorem detect_least_locked : ∃ s : Sign,
    s.Least lockedFiles onlyBun strangeEnvironment ⟨"/p/sub/app"⟩ ∧
      (detect lockedFiles strangeEnvironment ⟨"/p/sub/app"⟩ onlyBun).run
        = ⟨s.manager, s.source⟩ ∧
      s.source = .lockfile ∧ s.manager = .yarn ∧
      Sign.Holds lockedFiles onlyBun strangeEnvironment ⟨"/p/sub/app"⟩ ⟨.lockfile, 2, .npm⟩ ∧
      Sign.Holds lockedFiles onlyBun strangeEnvironment ⟨"/p/sub/app"⟩ ⟨.configFile, 0, .bun⟩ ∧
      Sign.Holds lockedFiles onlyBun strangeEnvironment ⟨"/p/sub/app"⟩ ⟨.executable, 0, .bun⟩ := by
  obtain ⟨hleast, hexists, -⟩ :=
    detect_least lockedFiles onlyBun strangeEnvironment ⟨"/p/sub/app"⟩
  have habove : Path.up? 2 ⟨"/p/sub/app"⟩ = some ⟨"/p"⟩ := by
    decide +kernel
  have hlock : Sign.Holds lockedFiles onlyBun strangeEnvironment ⟨"/p/sub/app"⟩
      ⟨.lockfile, 2, .npm⟩ := .lockfile habove List.mem_cons_self (by decide +kernel)
  have hconfig : Sign.Holds lockedFiles onlyBun strangeEnvironment ⟨"/p/sub/app"⟩
      ⟨.configFile, 0, .bun⟩ := .configFile rfl List.mem_cons_self (by decide +kernel)
  have hprogram : Sign.Holds lockedFiles onlyBun strangeEnvironment ⟨"/p/sub/app"⟩
      ⟨.executable, 0, .bun⟩ := .executable (by decide)
  obtain ⟨s, hs⟩ := hexists ⟨_, hlock⟩
  have hrun := hleast s hs
  have hyarn : (detect lockedFiles strangeEnvironment ⟨"/p/sub/app"⟩ onlyBun).run
      = ⟨.yarn, .lockfile⟩ := by
    decide +kernel
  obtain ⟨hmanager, hsource⟩ := Detection.mk.inj (hrun.symm.trans hyarn)
  exact ⟨s, hs, hrun, hsource, hmanager, hlock, hconfig, hprogram⟩

end Detection

end ModuleTrace
