import ModuleTrace.Proofs.FileSystem.Walks
import ModuleTrace.Proofs.Suite.Compositionality
import ModuleTrace.Proofs.Traversal.Normalization

/-!
# Each file is collected once

A collection has three sources: the tests that a walk finds, the snapshots below a directory, and
what a traversal reaches. The last two are normalized. The first has the spelling of the directory
of its rule, so a test is told twice if its rule leads up and something else leads to the test.
-/

namespace ModuleTrace

namespace MatchRule

/-- The directory of the rule is told with steps up. -/
def LeadsUp (rule : MatchRule) : Prop :=
  ∃ directory, rule.testDirectory = some directory ∧ .up ∈ directory.parts

theorem isAbsolute_directoryIn (rule : MatchRule) {root : Path} (h : root.isAbsolute = true) :
    (rule.directoryIn root).isAbsolute = true := by
  cases hdirectory : rule.testDirectory with
  | none => simpa [directoryIn, hdirectory] using h
  | some directory => simpa [directoryIn, hdirectory] using Path.isAbsolute_join h

theorem clean_directoryIn_iff (rule : MatchRule) {root : Path} (hroot : root.Clean) :
    (rule.directoryIn root).Clean ↔ ¬ rule.LeadsUp := by
  cases hdirectory : rule.testDirectory with
  | none => simpa [directoryIn, LeadsUp, hdirectory] using hroot
  | some directory =>
      simp only [directoryIn, LeadsUp, hdirectory, Option.some.injEq, exists_eq_left']
      cases habsolute : directory.isAbsolute with
      | true =>
          rw [Path.join_of_absolute habsolute]
          exact ⟨Path.Clean.no_up, fun hup => ⟨(Path.isAbsolute_iff_head? _).1 habsolute, hup⟩⟩
      | false =>
          have hlead : .up ∉ directory.cut.lead.toList := by
            unfold Path.cut Path.Cut.ofPieces
            split <;> simp
          have hinner : .up ∈ directory.parts ↔ .up ∈ Path.inner directory.text.toList := by
            rw [Path.parts_eq, List.mem_append]
            exact or_iff_right hlead
          rw [hinner]
          refine ⟨fun h hup => h.no_up ?_, hroot.join habsolute⟩
          rw [Path.parts_join hroot.text_ne habsolute]
          exact List.mem_append_right _ hup

theorem clean_snapshotDirectory (rule : MatchRule) {directory : Path}
    (h : directory.isAbsolute = true) (file : Path) :
    (rule.snapshotDirectory directory file).Clean :=
  Path.clean_normalize (Path.isAbsolute_join h)

end MatchRule

namespace Suite

/-! ## The three sources -/

section

variable {m : Type → Type} [Monad m] [LawfulMonad m]

/-- A search that finds no files but those below the directory that it looks into. -/
structure Search.StaysBelow (search : Search m) : Prop where
  walk : ∀ directory, Always (fun found => ∀ files, found = .ok files →
    ∀ p ∈ files, Path.LiesIn p directory) (search.walk directory)
  filesUnder : ∀ directory, Always (fun files => ∀ p ∈ files, p.LiesIn directory)
    (search.filesUnder directory)

theorem Search.staysBelow_of {fs : FileSystem m} (hnames : fs.NamesPlainly) :
    (Search.of fs).StaysBelow where
  walk directory := by
    have hnone : ∀ error : SuiteError, Always (m := m) (fun found => ∀ files : List Path,
        found = Except.ok files → ∀ p ∈ files, p.LiesIn directory) (pure (Except.error error)) :=
      fun error => .pure fun files hfiles => by cases hfiles
    refine (Always.top _).bind fun found _ => ?_
    simp only
    split
    all_goals
      refine (Always.top _).bind fun layers _ => ?_
      split
      · exact hnone _
      · refine (fs.walk_liesIn hnames _ layers directory).bind fun visits hvisits => ?_
        split
        · exact hnone _
        · refine .pure fun files hfiles => ?_
          obtain rfl := Except.ok.inj hfiles
          exact Visit.paths_liesIn hvisits
  filesUnder directory :=
    (fs.walk_liesIn hnames _ () directory).bind fun _ hvisits => .pure (Visit.paths_liesIn hvisits)

variable {search : Search m} (hsearch : search.StaysBelow)

include hsearch

theorem snapshotsIn_liesIn (directory : Path) :
    Always (fun files => ∀ p ∈ files, p.LiesIn directory) (snapshotsIn search directory) := by
  refine (Always.top _).bind fun found _ => ?_
  split
  · exact hsearch.filesUnder directory
  · exact .pure (by simp)

theorem findTests_liesIn (rule : MatchRule) (directory : Path) :
    Always (fun found => ∀ tests, found = .ok tests → ∀ test ∈ tests, Path.LiesIn test directory)
      (findTests search rule directory) := by
  refine (findTests_finds search rule directory (hsearch.walk directory)).mono ?_
  intro found h tests htests test htest
  obtain ⟨files, hfiles, -, selection, -, hselected⟩ := h tests htests
  exact hfiles test ((hselected test).1 htest).1

end

end Suite

namespace Session

variable {m : Type → Type} [Monad m] [LawfulMonad m] {s : Session m}

theorem collect_distinguishes (hnamed : s.NamesNormalPackages) {e : Path}
    (habsolute : e.isAbsolute = true) :
    Ensures (confinement s).Keeps (s.collect e)
      fun result => ∀ reach, result = .ok reach → Distinguishes reach := by
  have hstart : (nearlyCleanZone hnamed).Start e.normalize :=
    (Path.clean_normalize habsolute).nearly
  refine (collect_covers (nearlyCleanZone hnamed).region hstart).mono fun result memory h => ?_
  exact ⟨fun reach hreach => distinguishes_of_covers (h.2 reach hreach), h.1⟩

end Session

namespace Suite

/-! ## Spellings of what is gathered -/

theorem addResult_files (g : Gathering) (test : Path) (result : Except ResolveError Reach) :
    (addResult g test result).files = g.files ++ filesOf test result := by
  cases result with
  | error error => simp [addResult, Gathering.addError, filesOf]
  | ok reach =>
      simp only [addResult, addReach, Gathering.addFiles, filesOf]
      split <;> rfl

/-- A file below the directory of a rule that leads up. -/
def Strays (root : Path) (rules : List MatchRule) (p : Path) : Prop :=
  ∃ rule ∈ rules, rule.LeadsUp ∧ p.LiesIn (rule.directoryIn root)

/-- Files with normal paths, up to those that stray. -/
def Straight (root : Path) (rules : List MatchRule) (files : List Path) : Prop :=
  ∀ p ∈ files, p.IsNormal ∨ Strays root rules p

section

variable {m : Type → Type} [Monad m] [LawfulMonad m] {s : Session m}
  (hnamed : s.NamesNormalPackages) {search : Search m} (hsearch : search.StaysBelow)
  {root : Path} (hroot : root.Clean) {rules : List MatchRule}

include hnamed hsearch hroot

theorem collectTest_straight {rule : MatchRule} (hrule : rule ∈ rules) {g : Gathering}
    (hg : Straight root rules g.files) {test : Path}
    (htest : test.LiesIn (rule.directoryIn root)) :
    Ensures (Session.confinement s).Keeps (collectTest s search rule (rule.directoryIn root) g test)
      fun g => Straight root rules g.files := by
  have hdirectory := rule.isAbsolute_directoryIn hroot.isAbsolute
  have hspelled : test.IsNormal ∨ Strays root rules test := by
    by_cases hup : rule.LeadsUp
    · exact .inr ⟨rule, hrule, hup, htest⟩
    · exact .inl (htest.clean ((rule.clean_directoryIn_iff hroot).2 hup)).isNormal
  rw [collectTest_eq]
  refine (Ensures.lift (snapshotsIn_liesIn hsearch _)).bind fun snapshots hsnapshots => ?_
  refine (Session.collect_distinguishes hnamed (htest.isAbsolute hdirectory)).bind
    fun result hresult => .pure fun p hp => ?_
  rw [addResult_files, Gathering.addFiles, List.append_assoc, List.mem_append,
    List.mem_append] at hp
  rcases hp with hp | hp | hp
  · exact hg p hp
  · have hclean := rule.clean_snapshotDirectory hdirectory test
    exact .inl ((hsnapshots p hp).clean hclean).isNormal
  · cases result with
    | error error => simp [filesOf] at hp
    | ok reach =>
        rw [filesOf, List.mem_append, List.mem_singleton] at hp
        rcases hp with hp | rfl
        · obtain ⟨file, hfile, rfl⟩ := List.mem_map.1 hp
          exact .inl ((hresult reach rfl).normal file (List.mem_cons_of_mem _ hfile))
        · exact hspelled

theorem collectRule_straight {rule : MatchRule} (hrule : rule ∈ rules) {g : Gathering}
    (hg : Straight root rules g.files) :
    Ensures (Session.confinement s).Keeps (collectRule s search root g rule)
      fun g => Straight root rules g.files := by
  unfold collectRule
  refine (Ensures.lift (findTests_liesIn hsearch rule _)).bind fun found hfound => ?_
  cases found with
  | error error => exact .pure hg
  | ok tests =>
      exact .foldlM (fun g test htest hg =>
        collectTest_straight hnamed hsearch hroot hrule hg (hfound tests rfl test htest)) hg

/-- Files of a collection stand there once, and their paths are normal or stray. -/
theorem collect_straight (rules : List MatchRule) :
    Ensures (Session.confinement s).Keeps (collect s search root rules)
      fun collection => Straight root rules collection.files ∧
        collection.files.Pairwise fun p q => p.parts ≠ q.parts := by
  have hnone : Straight root rules ({} : Gathering).files := by simp [Straight]
  refine (Ensures.foldlM (fun g rule hrule hg =>
    collectRule_straight hnamed hsearch hroot hrule hg) hnone).bind fun g hg => .pure ⟨?_, ?_⟩
  · intro p hp
    exact hg p ((Path.sort_perm _).mem_iff.1 ((dropRepeated_sublist _).subset hp))
  · refine (pairwise_distinct g.files).imp fun {p q} hlt hparts => ?_
    rw [(Path.compare_eq_iff p q).2 hparts] at hlt
    cases hlt

end

/-! ## Each file once -/

/-- What is known of the files that some rules collect. -/
structure ToldApart (root : Path) (rules : List MatchRule) (files : List Path) : Prop where
  straight : Straight root rules files
  /-- Of two spellings of one file, one is that of a test of a rule that leads up. -/
  apart : files.Pairwise fun p q =>
    p.normalize.parts = q.normalize.parts → Strays root rules p ∨ Strays root rules q
  once : (∀ rule ∈ rules, ¬ rule.LeadsUp) → (files.map fun p => p.normalize.parts).Nodup

theorem toldApart_of_straight {root : Path} {rules : List MatchRule} {files : List Path}
    (hstraight : Straight root rules files)
    (hparts : files.Pairwise fun p q => p.parts ≠ q.parts) : ToldApart root rules files := by
  have hapart : files.Pairwise fun p q =>
      p.normalize.parts = q.normalize.parts → Strays root rules p ∨ Strays root rules q := by
    refine hparts.imp_of_mem fun {p q} hp hq hne hsame => ?_
    rcases hstraight p hp with hnormal | hstrays
    · rcases hstraight q hq with hnormal' | hstrays
      · exact absurd (hnormal.symm.trans (hsame.trans hnormal')) hne
      · exact .inr hstrays
    · exact .inl hstrays
  refine ⟨hstraight, hapart, fun hrules => List.pairwise_map.2 ?_⟩
  have hnone : ∀ p, ¬ Strays root rules p := fun p ⟨rule, hrule, hup, _⟩ => hrules rule hrule hup
  exact hapart.imp fun {p q} h hsame => (h hsame).elim (hnone p) (hnone q)

/-- A collection in an absolute normal directory holds no file twice, whatever was called before:
not under two spellings either, unless a rule leads up to it. Of the search it is only asked that
it stays below the directories that it looks into, as that of a file system does. -/
theorem collect_once {m : Type → Type} [Monad m] [LawfulMonad m] {s : Session m}
    (hnamed : s.NamesNormalPackages) {search : Search m} (hsearch : search.StaysBelow)
    {root : Path} (habsolute : root.isAbsolute = true) (hnormal : root.IsNormal)
    (calls : List (Call m)) (rules : List MatchRule) :
    Always (fun result => ToldApart root rules result.1.files)
        ((do s.performAll calls; collect s search root rules).run {}) ∧
      ∀ fs : FileSystem m, fs.NamesPlainly → (Search.of fs).StaysBelow := by
  refine ⟨?_, fun fs => Search.staysBelow_of⟩
  have hroot := Path.clean_of_isNormal habsolute hnormal
  have hrun := (Session.performAll_keeps Session.confinement_load calls).bind fun _ _ =>
    collect_straight hnamed hsearch hroot rules
  have hempty := (Session.confinement s).keeps_empty Knowledge.tidy_nothing
  exact (hrun {} hempty).mono fun result h => toldApart_of_straight h.1.1 h.1.2

/-- A test is collected if its traversal ends well. -/
theorem mem_collectedAfter {s : Session Id} (fixed : s.loader.Fixed) {search : Search Id}
    {root test : Path} {rules : List MatchRule} {rule : MatchRule} {tests : List Path}
    (hrule : rule ∈ rules)
    (htests : (findTests search rule (rule.directoryIn root)).run = .ok tests)
    (htest : test ∈ tests) (hplain : (s.collectPlain test).toOption.isSome = true)
    (past : List (Call Id)) :
    test.parts ∈ (collectedAfter s search root past rules).files.map Path.parts := by
  obtain ⟨plain, hok⟩ : ∃ plain, s.collectPlain test = .ok plain := by
    cases hresult : s.collectPlain test with
    | error error => simp [hresult, Except.toOption] at hplain
    | ok plain => exact ⟨plain, rfl⟩
  obtain ⟨reach, hreach, -⟩ := Session.exists_collect_alike fixed [] hok
  have hfresh : fresh s test = .ok reach := hreach
  rw [(collectedAfter_fixed fixed search root past rules).files]
  refine List.mem_map.2 ⟨test, List.mem_flatMap.2 ⟨rule, hrule, ?_⟩, rfl⟩
  rw [filesOfRule, htests]
  refine List.mem_flatMap.2 ⟨test, htest, ?_⟩
  rw [filesOfTest, hfresh, filesOf]
  simp

def scriptRuleIn (directory : Path) (name : String) : MatchRule :=
  { scriptRule name with testDirectory := some directory }

/-- The script `a.js`, which needs `b.js`, and `b.js` by itself. -/
def scriptRules : List MatchRule :=
  [scriptRule "a.js", scriptRuleIn ⟨"./."⟩ "b.js"]

theorem collect_once_scripts :
    Session.sample.NamesNormalPackages ∧ (Search.of scripts).StaysBelow ∧
    (Path.mk "/").isAbsolute = true ∧ (Path.mk "/").IsNormal ∧
    (∀ rule ∈ scriptRules, ¬ rule.LeadsUp) ∧
    (∀ test ∈ [⟨"/a.js"⟩, ⟨"/././b.js"⟩], Path.parts test ∈
      (collectedAfter Session.sample scripts ⟨"/"⟩ [.resolve ⟨"/c.js"⟩] scriptRules).files.map
        Path.parts) ∧
    ((collectedAfter Session.sample scripts ⟨"/"⟩ [.resolve ⟨"/c.js"⟩] scriptRules).files.map
      fun p => p.normalize.parts).Nodup := by
  have hnamed : Session.sample.NamesNormalPackages := fun workspace name package hworkspace => by
    cases hworkspace
  have hsearch : (Search.of scripts).StaysBelow :=
    Search.staysBelow_of (FileTree.fileSystem_namesPlainly (by decide +kernel) _)
  have hstraight : .up ∉ (Path.mk "./.").parts := by decide
  have hrules : ∀ rule ∈ scriptRules, ¬ rule.LeadsUp := by
    simpa [scriptRules, MatchRule.LeadsUp, scriptRule, scriptRuleIn] using hstraight
  have hnormal : (Path.mk "/").IsNormal := by
    unfold Path.IsNormal
    decide
  have honce := always_id.1 (collect_once hnamed hsearch (by decide) hnormal
    [.resolve ⟨"/c.js"⟩] scriptRules).1
  have hfirst : (findTests (.of scripts) (scriptRule "a.js")
      ((scriptRule "a.js").directoryIn ⟨"/"⟩)).run = .ok [⟨"/a.js"⟩] := by
    decide +kernel
  have hsecond : (findTests (.of scripts) (scriptRuleIn ⟨"./."⟩ "b.js")
      ((scriptRuleIn ⟨"./."⟩ "b.js").directoryIn ⟨"/"⟩)).run = .ok [⟨"/././b.js"⟩] := by
    decide +kernel
  refine ⟨hnamed, hsearch, by decide, hnormal, hrules, fun test htest => ?_, honce.once hrules⟩
  rcases List.mem_cons.1 htest with rfl | htest
  · exact mem_collectedAfter Session.sample_fixed List.mem_cons_self hfirst List.mem_cons_self
      (by decide +kernel) _
  · obtain rfl := List.mem_singleton.1 htest
    exact mem_collectedAfter Session.sample_fixed (List.mem_cons_of_mem _ List.mem_cons_self)
      hsecond List.mem_cons_self (by decide +kernel) _

def lone : FileSystem Id :=
  FileTree.fileSystem (.directory [("p", .directory [("a.js", .file (.ok "a") false)])]) ⟨"/"⟩

def reading : Session Id where
  loader := .ofTexts [([.root, .name "p", .name "a.js"], "a")]
  extractor := .ofTexts [("a", .specifiers [])]
  options := { root := some ⟨"/p"⟩ }
  workspace := none

/-- The script in the directory, and on a way that leads up and back. -/
def windingRules : List MatchRule :=
  [scriptRule "a.js", scriptRuleIn ⟨"../p"⟩ "a.js"]

theorem collect_once_winding :
    reading.NamesNormalPackages ∧ (Search.of lone).StaysBelow ∧ (Path.mk "/p").isAbsolute = true ∧
    (Path.mk "/p").IsNormal ∧
    ¬ ((collectedAfter reading lone ⟨"/p"⟩ [] windingRules).files.map
      fun p => p.normalize.parts).Nodup := by
  have hnormal : (Path.mk "/p").IsNormal := by
    unfold Path.IsNormal
    decide
  refine ⟨fun workspace name package hworkspace => (by cases hworkspace),
    Search.staysBelow_of (FileTree.fileSystem_namesPlainly (by decide +kernel) _), by decide,
    hnormal, fun hnodup => ?_⟩
  have hfixed : reading.loader.Fixed := Loader.ofTexts_fixed _
  have hfirst : (findTests (.of lone) (scriptRule "a.js")
      ((scriptRule "a.js").directoryIn ⟨"/p"⟩)).run = .ok [⟨"/p/a.js"⟩] := by
    decide +kernel
  have hsecond : (findTests (.of lone) (scriptRuleIn ⟨"../p"⟩ "a.js")
      ((scriptRuleIn ⟨"../p"⟩ "a.js").directoryIn ⟨"/p"⟩)).run = .ok [⟨"/p/../p/a.js"⟩] := by
    decide +kernel
  have hstraight : (Path.mk "/p/a.js").parts
      ∈ (collectedAfter reading lone ⟨"/p"⟩ [] windingRules).files.map Path.parts :=
    mem_collectedAfter hfixed List.mem_cons_self hfirst List.mem_cons_self (by decide +kernel) []
  have hwinding : (Path.mk "/p/../p/a.js").parts
      ∈ (collectedAfter reading lone ⟨"/p"⟩ [] windingRules).files.map Path.parts :=
    mem_collectedAfter hfixed (List.mem_cons_of_mem _ List.mem_cons_self) hsecond
      List.mem_cons_self (by decide +kernel) []
  obtain ⟨p, hp, hparts⟩ := List.mem_map.1 hstraight
  obtain ⟨q, hq, hparts'⟩ := List.mem_map.1 hwinding
  have hsame : p.normalize.parts = q.normalize.parts := by
    rw [Path.normalize_congr hparts, Path.normalize_congr hparts']
    decide
  have heq := List.inj_on_of_nodup_map hnodup hp hq hsame
  rw [heq, hparts'] at hparts
  revert hparts
  decide

end Suite

end ModuleTrace
