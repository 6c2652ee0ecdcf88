import Mathlib.Data.List.Forall2
import ModuleTrace.Proofs.FileSystem.Directories
import ModuleTrace.Proofs.Path.Order
import ModuleTrace.Workspace.Members

/-!
# Directories that patterns choose

A root lists its members by patterns: some choose directories below it, and some, behind an
exclamation mark, take them out again. In what order the patterns stand, and how often, has no
bearing on that.
-/

namespace ModuleTrace

namespace Workspace

/-! ## Patterns -/

/-- The text of a glob without `./` before it and slashes behind it. -/
inductive Trims : String → String → Prop
  | front {rest trimmed : String} (h : Trims rest trimmed) : Trims ("./" ++ rest) trimmed
  | back {text trimmed : String} (hfront : ∀ rest, text ++ "/" ≠ "./" ++ rest)
      (h : Trims text trimmed) : Trims (text ++ "/") trimmed
  | whole {text : String} (hfront : ∀ rest, text ≠ "./" ++ rest)
      (hback : ∀ rest, text ≠ rest ++ "/") : Trims text text

theorem trimPattern_front (rest : String) : trimPattern ("./" ++ rest) = trimPattern rest := by
  have htext : ("./" ++ rest).toList = '.' :: '/' :: rest.toList := by simp
  rw [trimPattern, htext, dropHere, trimPattern]

theorem dropHere_toList {text : String} (h : ∀ rest, text ≠ "./" ++ rest) :
    String.ofList (dropHere text.toList) = text := by
  unfold dropHere
  split
  · rename_i rest heq
    refine absurd (String.toList_inj.1 ?_) (h (String.ofList rest))
    simp [heq]
  · exact String.ofList_toList

theorem trimPattern_back {text : String} (h : ∀ rest, text ++ "/" ≠ "./" ++ rest) :
    trimPattern (text ++ "/") = trimPattern text := by
  have htext : ∀ rest, text ≠ "./" ++ rest := by
    rintro rest rfl
    exact h (rest ++ "/") (String.append_assoc ..)
  rw [trimPattern, trimPattern, dropHere_toList h, dropHere_toList htext]
  simp [Affix.trimRight]

theorem trimPattern_whole {text : String} (hfront : ∀ rest, text ≠ "./" ++ rest)
    (hback : ∀ rest, text ≠ rest ++ "/") : trimPattern text = text := by
  rw [trimPattern, dropHere_toList hfront, Affix.trimRight]
  cases hlast : text.toList.reverse with
  | nil => simpa using hlast.symm
  | cons c before =>
      have htext : text.toList = before.reverse ++ [c] := by
        simpa using congrArg List.reverse hlast
      have hc : c ≠ '/' := by
        rintro rfl
        exact hback (String.ofList before.reverse) (String.toList_inj.1 (by simp [htext]))
      rw [List.dropWhile_cons_of_neg (by simpa using hc), List.reverse_cons, ← htext,
        String.ofList_toList]

theorem trims_trimPattern (glob : String) : Trims glob (trimPattern glob) := by
  by_cases hfront : ∃ rest, glob = "./" ++ rest
  · obtain ⟨rest, rfl⟩ := hfront
    rw [trimPattern_front]
    exact .front (trims_trimPattern rest)
  · have hnot : ∀ rest, glob ≠ "./" ++ rest := fun rest h => hfront ⟨rest, h⟩
    by_cases hback : ∃ text, glob = text ++ "/"
    · obtain ⟨text, rfl⟩ := hback
      rw [trimPattern_back hnot]
      exact .back hnot (trims_trimPattern text)
    · have hend : ∀ rest, glob ≠ rest ++ "/" := fun rest h => hback ⟨rest, h⟩
      rw [trimPattern_whole hnot hend]
      exact .whole hnot hend
termination_by glob.length
decreasing_by
  · subst_vars
    simp [show 0 < "./".length by decide]
  · subst_vars
    simp [show 0 < "/".length by decide]

theorem trims_iff {glob trimmed : String} : Trims glob trimmed ↔ trimmed = trimPattern glob := by
  constructor
  · intro h
    induction h with
    | front _ ih => rw [trimPattern_front, ih]
    | back hfront _ ih => rw [trimPattern_back hfront, ih]
    | whole hfront hback => rw [trimPattern_whole hfront hback]
  · rintro rfl
    exact trims_trimPattern glob

section

variable (reader : Glob.Reader)

def Accepts (glob relative : String) : Prop :=
  ∃ trimmed test, Trims glob trimmed ∧ reader trimmed = .ok test ∧ test relative = true

/-- Some glob accepts the path, and none that stands behind an exclamation mark. -/
def Chooses (globs : List String) (relative : String) : Prop :=
  (∃ glob ∈ globs, (∀ rest, glob ≠ "!" ++ rest) ∧ Accepts reader glob relative) ∧
    ∀ glob, "!" ++ glob ∈ globs → ¬ Accepts reader glob relative

variable {reader}

theorem chooses_congr {globs others : List String} (h : ∀ glob, glob ∈ globs ↔ glob ∈ others)
    (relative : String) : Chooses reader globs relative ↔ Chooses reader others relative := by
  simp only [Chooses, h]

theorem accepts_iff {glob relative : String} : Accepts reader glob relative ↔
    ∃ test, reader (trimPattern glob) = .ok test ∧ test relative = true := by
  simp only [Accepts, trims_iff, exists_and_left, exists_eq_left]

theorem mapM_eq_ok_iff {ε α β : Type} {f : α → Except ε β} {as : List α} {bs : List β} :
    as.mapM f = .ok bs ↔ List.Forall₂ (fun a b => f a = .ok b) as bs := by
  induction as generalizing bs with
  | nil => cases bs <;> simp [pure, Except.pure]
  | cons a as ih =>
      rw [List.mapM_cons, List.forall₂_cons_left_iff]
      simp only [← ih]
      cases hfirst : f a with
      | error error => simp [bind, Except.bind]
      | ok b =>
          cases hrest : as.mapM f with
          | error error => simp [bind, Except.bind]
          | ok rest => simp [bind, Except.bind, pure, Except.pure, eq_comm]

theorem parsePatterns_eq_ok_iff {texts : List String} {tests : List (String → Bool)} :
    parsePatterns reader texts = .ok tests ↔ List.Forall₂ (fun text test =>
      reader (trimPattern text) = .ok test) texts tests := by
  rw [parsePatterns, mapM_eq_ok_iff]
  constructor <;> refine fun h => h.imp fun text test hparse => ?_
  · simp only at hparse
    split at hparse <;> cases hparse
    assumption
  · simp only [hparse]

theorem any_test_iff {texts : List String} {tests : List (String → Bool)}
    (h : parsePatterns reader texts = .ok tests) (relative : String) :
    tests.any (· relative) = true ↔ ∃ text ∈ texts, Accepts reader text relative := by
  have hall := parsePatterns_eq_ok_iff.1 h
  clear h
  induction hall with
  | nil => simp
  | @cons text test texts tests hparse _ ih =>
      have hfirst : Accepts reader text relative ↔ test relative = true := by
        simp [accepts_iff, hparse]
      simp only [List.any_cons, Bool.or_eq_true, List.mem_cons, exists_eq_or_imp, hfirst, ih]

theorem exists_parsePatterns_iff {texts : List String} :
    (∃ tests, parsePatterns reader texts = .ok tests) ↔
      ∀ text ∈ texts, ∃ test, reader (trimPattern text) = .ok test := by
  simp only [parsePatterns_eq_ok_iff]
  induction texts with
  | nil => simp
  | cons text texts ih =>
      rw [List.forall_mem_cons, ← ih]
      constructor
      · rintro ⟨tests, htests⟩
        obtain ⟨test, rest, hfirst, hrest, rfl⟩ := List.forall₂_cons_left_iff.1 htests
        exact ⟨⟨test, hfirst⟩, rest, hrest⟩
      · rintro ⟨⟨test, hfirst⟩, rest, hrest⟩
        exact ⟨test :: rest, .cons hfirst hrest⟩

namespace Selection

theorem parse_eq_ok_iff {globs : List String} {s : Selection} :
    parse reader globs = .ok s ↔
      parsePatterns reader (globs.filter fun text => !Affix.begins "!" text) = .ok s.included ∧
        parsePatterns reader (globs.filterMap (Affix.dropStart? "!")) = .ok s.excluded := by
  obtain ⟨included, excluded⟩ := s
  unfold parse
  cases parsePatterns reader (globs.filter fun text => !Affix.begins "!" text) with
  | error error => simp [bind, Except.bind]
  | ok patterns =>
      cases parsePatterns reader (globs.filterMap (Affix.dropStart? "!")) with
      | error error => simp [bind, Except.bind]
      | ok others => simp [bind, Except.bind, pure, Except.pure]

theorem begins_eq_false_iff {glob : String} :
    Affix.begins "!" glob = false ↔ ∀ rest, glob ≠ "!" ++ rest := by
  rw [← Bool.not_eq_true, Affix.begins_iff, not_exists]

theorem mem_excluded_iff {globs : List String} {glob : String} :
    glob ∈ globs.filterMap (Affix.dropStart? "!") ↔ "!" ++ glob ∈ globs := by
  simp [List.mem_filterMap, Affix.dropStart?_eq_some_iff]

theorem selects_iff {globs : List String} {s : Selection} (h : parse reader globs = .ok s)
    {relative : String} (hne : relative ≠ "") :
    s.selects ⟨relative⟩ = true ↔ Chooses reader globs relative := by
  obtain ⟨hincluded, hexcluded⟩ := parse_eq_ok_iff.1 h
  have hin := any_test_iff hincluded relative
  have hout := any_test_iff hexcluded relative
  simp only [selects, Bool.and_eq_true, decide_eq_true_eq, Bool.not_eq_true', ← Bool.not_eq_true,
    hin, hout, hne, ne_eq, not_false_eq_true, true_and, mem_excluded_iff, Chooses]
  simp [and_assoc, begins_eq_false_iff]

/-- Whether patterns can be parsed does not depend on their order. -/
theorem exists_parse_iff {globs : List String} :
    (∃ s, parse reader globs = .ok s) ↔
      (∀ glob ∈ globs, (∀ rest, glob ≠ "!" ++ rest) →
        ∃ test, reader (trimPattern glob) = .ok test) ∧
      ∀ glob, "!" ++ glob ∈ globs →
        ∃ test, reader (trimPattern glob) = .ok test := by
  have hparts : (∃ s, parse reader globs = .ok s) ↔
      (∃ patterns,
        parsePatterns reader (globs.filter fun text => !Affix.begins "!" text) = .ok patterns) ∧
      ∃ patterns,
        parsePatterns reader (globs.filterMap (Affix.dropStart? "!")) = .ok patterns := by
    simp only [parse_eq_ok_iff]
    exact ⟨fun ⟨s, hin, hout⟩ => ⟨⟨_, hin⟩, _, hout⟩,
      fun ⟨⟨included, hin⟩, excluded, hout⟩ => ⟨⟨included, excluded⟩, hin, hout⟩⟩
  rw [hparts, exists_parsePatterns_iff, exists_parsePatterns_iff]
  simp only [mem_excluded_iff, List.mem_filter, Bool.not_eq_true', and_imp, begins_eq_false_iff]

theorem exists_parse_congr {globs others : List String} (h : ∀ glob, glob ∈ globs ↔ glob ∈ others) :
    (∃ s, parse reader globs = .ok s) ↔ ∃ s, parse reader others = .ok s := by
  simp only [exists_parse_iff, h]

end Selection

end

/-! ## Directories -/

/-- Names that lead from a directory to one below it, none of which is passed by. -/
structure Reaches (fs : FileSystem Id) (root : Path) (names : List String) : Prop where
  start : (fs.kind root).run = .ok .directory
  ne_nil : names ≠ []
  plain : Path.PlainNames names
  unavoided : ∀ name ∈ names, name ≠ "node_modules" ∧ name ≠ ".git"
  directory : (fs.kind (root.below names)).run = .ok .directory

theorem notMem_passedBy_iff {name : String} :
    name ∉ passedBy ↔ name ≠ "node_modules" ∧ name ≠ ".git" := by
  simp [passedBy]

section

variable {reader : Glob.Reader} {fs : FileSystem Id} (faithful : fs.Faithful) {root : Path}
  {globs : List String}

include faithful

theorem mem_directoriesBelow_iff (hroot : (fs.kind root).run = .ok .directory)
    (names : List String) :
    names ∈ fs.directoriesBelow passedBy fs.extent root ↔ Reaches fs root names := by
  have htext := faithful.text_ne _ _ hroot
  rw [FileSystem.mem_directoriesBelow faithful _ htext]
  constructor
  · intro ⟨hne, _, hplain, havoided, hkind⟩
    exact ⟨hroot, hne, hplain, fun name hname => notMem_passedBy_iff.1 (havoided name hname), hkind⟩
  · intro h
    exact ⟨h.ne_nil, faithful.bounded root names htext h.plain h.directory, h.plain,
      fun name hname => notMem_passedBy_iff.2 (h.unavoided name hname), h.directory⟩

/-- Of a walk, the patterns choose by the names behind the root, and the root has none. -/
theorem filter_paths_walk (hroot : (fs.kind root).run = .ok .directory) (s : Selection) :
    (Visit.paths .directory (fs.walk (Guide.avoiding passedBy) () root).run).filter
        (fun path => (path.relativeTo? root).any s.selects)
      = ((fs.directoriesBelow passedBy fs.extent root).filter fun names =>
          s.selects ⟨Affix.joinWith "/" names⟩).map root.below := by
  have hself : (root.relativeTo? root).any s.selects = false := by
    rw [Path.relativeTo?_same rfl]
    simp [Selection.selects]
  rw [fs.paths_walk passedBy hroot, List.filter_cons_of_neg (by simp [hself]), List.filter_map]
  refine congrArg (List.map root.below) (List.filter_congr fun names hnames => ?_)
  have hreaches := (mem_directoriesBelow_iff faithful hroot names).1 hnames
  simp only [Function.comp_apply,
    Path.relativeTo?_below (faithful.text_ne _ _ hroot) hreaches.plain, Option.any_some]

/-- Directories that are reached by different names are different. -/
theorem pairwise_below (hroot : (fs.kind root).run = .ok .directory)
    (test : List String → Bool) :
    (((fs.directoriesBelow passedBy fs.extent root).filter test).map root.below).Pairwise
      fun p q => p.parts ≠ q.parts := by
  rw [List.pairwise_map]
  have honce : ((fs.directoriesBelow passedBy fs.extent root).filter test).Nodup :=
    (FileSystem.nodup_directoriesBelow faithful fs.extent root).filter test
  refine List.Pairwise.imp_of_mem (fun {names others} hnames hothers hne heq => ?_) honce
  have hplain : ∀ names ∈ (fs.directoriesBelow passedBy fs.extent root).filter test,
      Path.PlainNames names := fun names hnames =>
    ((mem_directoriesBelow_iff faithful hroot names).1 (List.mem_of_mem_filter hnames)).plain
  rw [Path.parts_below (hplain names hnames), Path.parts_below (hplain others hothers),
    List.append_cancel_left_eq] at heq
  exact hne (List.map_injective_iff.2 (fun _ _ h => Path.Part.name.inj h) heq)

theorem memberDirectories_eq_ok {directories : List Path}
    (h : (memberDirectories fs root globs reader).run = .ok directories) :
    directories.Pairwise (fun p q => p.compare q = .lt) ∧
      ∀ d, d ∈ directories ↔ ∃ names, Reaches fs root names ∧
        Chooses reader globs (Affix.joinWith "/" names) ∧ d = root.below names := by
  unfold memberDirectories at h
  cases hparse : Selection.parse reader globs with
  | error error =>
      rw [hparse] at h
      cases h
  | ok s =>
      rw [hparse] at h
      simp only [Id.run_bind, Id.run_pure, Except.ok.injEq] at h
      subst h
      by_cases hroot : (fs.kind root).run = .ok .directory
      · rw [filter_paths_walk faithful hroot s]
        refine ⟨Path.pairwise_lt_sort (pairwise_below faithful hroot _), fun d => ?_⟩
        rw [(Path.sort_perm _).mem_iff, List.mem_map]
        constructor
        · rintro ⟨names, hnames, rfl⟩
          obtain ⟨hmem, hselects⟩ := List.mem_filter.1 hnames
          have hreaches := (mem_directoriesBelow_iff faithful hroot names).1 hmem
          have hne := Path.joinWith_ne hreaches.ne_nil hreaches.plain
          exact ⟨names, hreaches, (Selection.selects_iff hparse hne).1 hselects, rfl⟩
        · rintro ⟨names, hreaches, hchooses, rfl⟩
          have hne := Path.joinWith_ne hreaches.ne_nil hreaches.plain
          have hmem := (mem_directoriesBelow_iff faithful hroot names).2 hreaches
          have hselects := (Selection.selects_iff hparse hne).2 hchooses
          exact ⟨names, List.mem_filter.2 ⟨hmem, hselects⟩, rfl⟩
      · have hnil : Path.sort [] = [] := by simp [Path.sort]
        rw [fs.paths_walk_of_ne passedBy hroot, List.filter_nil, hnil]
        refine ⟨.nil, fun d => ⟨fun hmem => absurd hmem List.not_mem_nil, ?_⟩⟩
        rintro ⟨names, hreaches, -⟩
        exact absurd hreaches.start hroot

end

/-- Patterns can be used or not, whatever there is to choose from. -/
theorem exists_memberDirectories_iff {reader : Glob.Reader} {fs : FileSystem Id} {root : Path}
    {globs : List String} :
    (∃ directories, (memberDirectories fs root globs reader).run = .ok directories) ↔
      ∃ s, Selection.parse reader globs = .ok s := by
  unfold memberDirectories
  cases Selection.parse reader globs with
  | error error => simp
  | ok s => simp

end Workspace

end ModuleTrace
