import ModuleTrace.Proofs.Bytes.Cuts
import ModuleTrace.Proofs.Resolution.Questions

/-!
# Classification by bytes

Classification with every text cut by bytes does what classification does, and no cut stops it. A
specifier with the scheme would be cut behind as many bytes as the name of its package has, which
need not be a place between two characters, but it is told apart before.
-/

namespace ModuleTrace.Bytes

/-! ## Actions that may panic -/

section

variable {m : Type → Type} [Monad m] {α β : Type}

/-- An action that cannot panic, among those that may. -/
def calmly (action : StateT Knowledge m α) : StateT Knowledge (ExceptT Panic m) α :=
  fun knowledge => ExceptT.lift (action.run knowledge)

def cut (outcome : Except Panic α) : StateT Knowledge (ExceptT Panic m) α :=
  fun knowledge => ExceptT.mk (pure (outcome.map (·, knowledge)))

theorem cut_ok (a : α) : (cut (.ok a) : StateT Knowledge (ExceptT Panic m) α) = pure a := rfl

theorem run_calmly (action : StateT Knowledge m α) (knowledge : Knowledge) :
    ((calmly action).run knowledge).run = Except.ok <$> action.run knowledge := rfl

variable [LawfulMonad m]

theorem calmly_pure (a : α) : calmly (pure a : StateT Knowledge m α) = pure a := by
  funext knowledge
  exact ExceptT.ext (map_pure ..)

theorem calmly_bind (x : StateT Knowledge m α) (f : α → StateT Knowledge m β) :
    calmly (x >>= f) = calmly x >>= fun a => calmly (f a) := by
  funext knowledge
  apply ExceptT.ext
  calc (calmly (x >>= f) knowledge).run
      = Except.ok <$> (x.run knowledge >>= fun r => (f r.1).run r.2) := rfl
    _ = x.run knowledge >>= fun r => (calmly (f r.1) r.2).run := map_bind ..
    _ = (ExceptT.lift (x.run knowledge) >>= fun r => calmly (f r.1) r.2).run :=
      (ExceptT.run_bind_lift ..).symm

theorem firstSome_calmly (action : α → StateT Knowledge m (Option β)) (as : List α) :
    Classifier.firstSome (fun a => calmly (action a)) as
      = calmly (Classifier.firstSome action as) := by
  induction as with
  | nil => exact (calmly_pure none).symm
  | cons a as ih =>
      rw [Classifier.firstSome, Classifier.firstSome, calmly_bind]
      refine bind_congr fun found => ?_
      cases found with
      | none => exact ih
      | some b => exact (calmly_pure (some b)).symm

theorem firstSome_id_calmly (actions : List (StateT Knowledge m (Option β))) :
    Classifier.firstSome id (actions.map calmly) = calmly (Classifier.firstSome id actions) := by
  rw [← firstSome_calmly]
  induction actions with
  | nil => rfl
  | cons action actions ih =>
      rw [List.map_cons, Classifier.firstSome, Classifier.firstSome, ih]
      rfl

end

/-! ## The rules -/

section

variable {m : Type → Type} [Monad m] (loader : Loader m) (s : Surroundings)

def byAlias (config : ProjectConfig) (specifier : String) :
    StateT Knowledge (ExceptT Panic m) (Option LocalDependency) := do
  let candidates ← cut (allCandidates config.aliases specifier)
  calmly (Classifier.firstSome (fun candidate =>
    Classifier.byRule loader s specifier (some config) (.aliased candidate.pattern candidate.target)
      candidate.path.normalize) candidates)

def byWorkspace (specifier : String) :
    StateT Knowledge (ExceptT Panic m) (Option LocalDependency) := do
  let name ← cut (packageName specifier)
  match s.workspace.bind fun workspace => workspace.byName name with
  | none => return none
  | some package => do
      let rest ← cut (subpath name specifier)
      let target := if rest.isEmpty then package.path else (package.path / rest).normalize
      let config ← calmly (Knowledge.configFor loader s.root package.path)
      calmly (Classifier.byRule loader (s.inside package) specifier config
        (.workspace package.name) target)

def bare (directory : Path) (config : Option ProjectConfig) (specifier : String) :
    StateT Knowledge (ExceptT Panic m) (Option LocalDependency) :=
  let configured :=
    match config with
    | none => []
    | some config =>
        [byAlias loader s config specifier, calmly (Classifier.byBase loader s config specifier)]
  Classifier.firstSome id (configured
    ++ [calmly (Classifier.byPackage loader s directory config specifier),
      byWorkspace loader s specifier])

def classify (file : SourceFile) (specifier : String) :
    StateT Knowledge (ExceptT Panic m) Classification := do
  if Specifier.hasScheme specifier then return .external specifier
  else
    let directory := file.directory
    let config ← calmly (Knowledge.configFor loader s.root directory)
    if Specifier.isLocal specifier then
      let target := (directory / specifier).normalize
      match ← calmly (Classifier.byRule loader s specifier config .relative target) with
      | some dependency => return .localFile dependency
      | none => return .missing ⟨specifier, target⟩
    else
      match ← bare loader s directory config specifier with
      | some dependency => return .localFile dependency
      | none => return .external specifier

variable [LawfulMonad m] {specifier : String}

theorem byAlias_eq (config : ProjectConfig) (specifier : String) :
    byAlias loader s config specifier = calmly (Classifier.byAlias loader s config specifier) := by
  rw [byAlias, allCandidates_eq, cut_ok, pure_bind, Classifier.byAlias]

/-- The name in front of the subpath is cut off where it ends, as the specifier has no scheme. -/
theorem byWorkspace_eq (h : Specifier.hasScheme specifier = false) :
    byWorkspace loader s specifier = calmly (Classifier.byWorkspace loader s specifier) := by
  rw [byWorkspace, packageName_eq, cut_ok, pure_bind, Classifier.byWorkspace]
  cases s.workspace.bind fun workspace => workspace.byName (Specifier.packageName specifier) with
  | none => exact (calmly_pure none).symm
  | some package =>
      dsimp only
      rw [subpath_eq h, cut_ok, pure_bind, calmly_bind]

theorem bare_eq (directory : Path) (config : Option ProjectConfig)
    (h : Specifier.hasScheme specifier = false) :
    bare loader s directory config specifier
      = calmly (Classifier.bare loader s directory config specifier) := by
  simp only [bare, Classifier.bare, ← firstSome_id_calmly, byAlias_eq, byWorkspace_eq loader s h]
  cases config <;> rfl

theorem classify_eq (file : SourceFile) (specifier : String) :
    classify loader s file specifier = calmly (Classifier.classify loader s file specifier) := by
  unfold classify Classifier.classify
  split
  · exact (calmly_pure _).symm
  · rename_i hscheme
    rw [calmly_bind]
    refine bind_congr fun config => ?_
    split
    · rw [calmly_bind]
      refine bind_congr fun found => ?_
      cases found <;> exact (calmly_pure _).symm
    · rw [calmly_bind, bare_eq loader s file.directory config (Bool.eq_false_iff.2 hscheme)]
      refine bind_congr fun found => ?_
      cases found <;> exact (calmly_pure _).symm

/-- A text has the slice between two positions exactly if these are in order, within the text and
between its characters, and every slice that is taken is one: names of packages and, behind the
name that a specifier without the scheme starts with, what follows it; patterns and what they
capture; literals between delimiters of one byte; directories of snapshots; and with them all of
classification give what they give by characters, and never panic. -/
theorem slices_never_panic :
    (∀ (text : String) (start stop : Nat), (∃ part, slice text start stop = .ok part) ↔
      start ≤ stop ∧ stop ≤ text.utf8ByteSize ∧ IsBoundary text start ∧ IsBoundary text stop) ∧
    (∀ specifier, packageName specifier = .ok (Specifier.packageName specifier)) ∧
    (∀ specifier, Specifier.hasScheme specifier = false →
      (∃ rest, specifier = Specifier.packageName specifier ++ rest) ∧
      subpath (Specifier.packageName specifier) specifier
        = .ok (Classifier.subpath (Specifier.packageName specifier) specifier)) ∧
    (∀ text, pattern text = .ok (Pattern.ofString text)) ∧
    (∀ (p : Pattern) (specifier : String), capture p specifier = .ok (p.capture? specifier)) ∧
    (∀ (opening closing : Char) (inside : String), opening.utf8Size = 1 → closing.utf8Size = 1 →
      literalBody (String.singleton opening ++ inside ++ String.singleton closing)
        = .ok (Literal.body (String.singleton opening ++ inside ++ String.singleton closing))) ∧
    (∀ (rule : MatchRule) (directory file : Path),
      snapshotDirectory rule directory file = .ok (rule.snapshotDirectory directory file)) ∧
    (∀ (file : SourceFile) (specifier : String) (knowledge : Knowledge),
      ((classify loader s file specifier).run knowledge).run
        = Except.ok <$> (Classifier.classify loader s file specifier).run knowledge) := by
  refine ⟨fun _ _ _ => slice_isOk_iff, packageName_eq, fun specifier h => ?_, pattern_eq,
    capture_eq, fun opening closing inside hopening hclosing => ?_, snapshotDirectory_eq,
    fun file specifier knowledge => ?_⟩
  · exact ⟨exists_packageName_append h, subpath_eq h⟩
  · obtain ⟨hcut, hbody⟩ := literalBody_eq hopening hclosing inside
    rw [hcut, hbody]
  · rw [classify_eq, run_calmly]

end

/-- A workspace whose names have characters of more than one byte. -/
def accentedWorkspace : Workspace :=
  ⟨⟨"w", ⟨"/w"⟩, none⟩, [⟨"@é/ü", ⟨"/w/ü"⟩, none⟩]⟩

def accentedProject : Loader Id :=
  .ofTexts [
    ([.root, .name "w", .name "a.js"], ""),
    ([.root, .name "w", .name "ü", .name "ß.js"], "")]

def accentedSurroundings : Surroundings :=
  ⟨none, some accentedWorkspace, none⟩

def accentedImporter : SourceFile := ⟨⟨"/w/a.js"⟩, ""⟩

theorem accentedProject_meaning :
    accentedProject.meaning accentedSurroundings accentedImporter "@é/ü/ß"
      = .localFile ⟨"@é/ü/ß", ⟨"/w/ü/ß.js"⟩, .workspace "@é/ü"⟩ := by
  decide +kernel

theorem slices_never_panic_accents :
    packageName "node:é/ü" = .ok "é" ∧
      (Specifier.hasScheme "@é/ü/ß" = false ∧ subpath "@é/ü" "@é/ü/ß" = .ok "ß") ∧
      pattern "é/*ß*" = .ok ⟨"é/", some "ß*"⟩ ∧
      capture ⟨"é/", some "ß"⟩ "é/üß" = .ok (some "ü") ∧
      ('\x60'.utf8Size = 1 ∧ literalBody "\x60./é\x60" = .ok "./é") ∧
      snapshotDirectory { snapshotTemplate := some "ü/\x7btestFileName\x7d/ß/\x7barg\x7d" } ⟨"/é"⟩
        ⟨"/é/a.spec.ts"⟩ = .ok ⟨"/é/ü/a.spec.ts/ß"⟩ ∧
      ∃ d knowledge, ((classify accentedProject accentedSurroundings accentedImporter
        "@é/ü/ß").run {}).run = Except.ok (.localFile d, knowledge) ∧
          d.rule = .workspace "@é/ü" := by
  obtain ⟨-, hname, hsubpath, hpattern, hcapture, hliteral, hsnapshots, hclassify⟩ :=
    slices_never_panic accentedProject accentedSurroundings
  have hscheme : Specifier.hasScheme "@é/ü/ß" = false := by decide
  have hquote : '\x60'.utf8Size = 1 := by decide
  refine ⟨(hname _).trans (by decide), ⟨hscheme, (hsubpath _ hscheme).2.trans (by decide)⟩,
    (hpattern _).trans (by decide), (hcapture _ _).trans (by decide), ⟨hquote, ?_⟩,
    (hsnapshots _ _ _).trans (by decide +kernel), ?_⟩
  · exact (hliteral '\x60' '\x60' "./é" hquote hquote).trans (by decide)
  · have hfixed : accentedProject.Fixed := Loader.ofTexts_fixed _
    have hmeaning := Knowledge.valueAfter_classify hfixed (s := accentedSurroundings) []
      accentedImporter "@é/ü/ß"
    rw [accentedProject_meaning] at hmeaning
    obtain ⟨d, hd, halike⟩ := hmeaning.exists_localFile
    let ended := Knowledge.runAfter accentedProject none []
      (Classifier.classify accentedProject accentedSurroundings accentedImporter "@é/ü/ß")
    refine ⟨d, ended.run.2, (hclassify accentedImporter "@é/ü/ß" {}).trans ?_, halike.rule⟩
    rw [← hd]
    rfl

end ModuleTrace.Bytes
