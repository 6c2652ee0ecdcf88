import ModuleTrace.Proofs.Resolution.Probing

/-!
# Files of packages that are named

One rule gives files by the name of a package, and it is the last one. It takes the package from
the specifier, and where there is a boundary it draws it around that package before it looks for
anything.
-/

namespace ModuleTrace

namespace Classifier

open Knowledge (Tidy)

section

variable {m : Type → Type} [Monad m] (loader : Loader m) (s : Surroundings)

/-! ## The rules before the last one -/

/-- What a bare specifier means by the rules of the project that the importing file is in. -/
def ownRules (directory : Path) (config : Option ProjectConfig) (specifier : String) :
    StateT Knowledge m (Option LocalDependency) :=
  let configured :=
    match config with
    | none => []
    | some config => [byAlias loader s config specifier, byBase loader s config specifier]
  firstSome id (configured ++ [byPackage loader s directory config specifier])

variable [LawfulMonad m]

theorem firstSome_singleton {β : Type} (x : StateT Knowledge m (Option β)) :
    firstSome id [x] = x := by
  rw [firstSome, id]
  conv => rhs; rw [← bind_pure x]
  refine bind_congr fun answer => ?_
  cases answer <;> rfl

theorem firstSome_append {α β : Type} (action : α → StateT Knowledge m (Option β))
    (as bs : List α) : firstSome action (as ++ bs) = (do
      match ← firstSome action as with
      | some found => return some found
      | none => firstSome action bs) := by
  induction as with
  | nil => simp [firstSome]
  | cons a rest ih =>
      rw [List.cons_append, firstSome, firstSome, bind_assoc, ih]
      refine bind_congr fun answer => ?_
      cases answer with
      | none => rfl
      | some found => simp

theorem bare_eq (directory : Path) (config : Option ProjectConfig) (specifier : String) :
    bare loader s directory config specifier = (do
      match ← ownRules loader s directory config specifier with
      | some dependency => return some dependency
      | none => byWorkspace loader s specifier) := by
  -- The list of all rules is the list of the own ones with the last rule behind it.
  have hlist : ∀ configured : List (StateT Knowledge m (Option LocalDependency)),
      configured ++ [byPackage loader s directory config specifier, byWorkspace loader s specifier]
        = (configured ++ [byPackage loader s directory config specifier])
          ++ [byWorkspace loader s specifier] := by simp
  unfold bare ownRules
  simp only
  rw [hlist, firstSome_append, firstSome_singleton]
  refine bind_congr fun answer => ?_
  cases answer <;> rfl

/-! ## Rule by rule -/

section

variable {loader : Loader m} {s : Surroundings} {I : Knowledge → Prop}
  {p : LocalDependency → Prop} {specifier : String}
  (hmanifest : ∀ directory,
    Ensures I (Knowledge.manifestFor loader s.root directory) fun _ => True)
  (hrule : ∀ config rule target, (∀ name, rule ≠ .workspace name) →
    Ensures I (byRule loader s specifier config rule target) fun answer =>
      ∀ d, answer = some d → p d)

include hmanifest hrule

/-- What every file has that is found for a target of these rules. -/
theorem ownRules_rule (directory : Path) (config : Option ProjectConfig) :
    Ensures I (ownRules loader s directory config specifier) fun answer =>
      ∀ d, answer = some d → p d := by
  have hpackage : Ensures I (byPackage loader s directory config specifier) fun answer =>
      ∀ d, answer = some d → p d := by
    unfold byPackage
    refine (hmanifest directory).bind fun found _ => ?_
    cases found with
    | none => exact .pure (by simp)
    | some manifest =>
        simp only
        split
        · exact .pure (by simp)
        · exact hrule config .package _ (by simp)
  unfold ownRules
  apply firstSome_rule
  intro action haction
  rcases List.mem_append.1 haction with hconfigured | hothers
  · cases config with
    | none => simp at hconfigured
    | some config =>
        simp only [List.mem_cons, List.not_mem_nil, or_false] at hconfigured
        rcases hconfigured with rfl | rfl
        · unfold byAlias
          exact firstSome_rule fun candidate _ => hrule _ _ _ (by simp)
        · unfold byBase
          cases config.baseUrl with
          | none => exact .pure (by simp)
          | some base => exact hrule _ _ _ (by simp)
  · obtain rfl := List.mem_singleton.1 hothers
    exact hpackage

/-- What a specifier means is told by what its own rules find and by what the last one does. -/
theorem classify_leads {Q : Classification → Knowledge → Prop}
    (hconfig : ∀ directory, Ensures I (Knowledge.configFor loader s.root directory) fun _ => True)
    (hnone : ∀ answer k, (∀ d, answer ≠ .localFile d) → I k → Q answer k)
    (hfound : ∀ d k, p d → I k → Q (.localFile d) k)
    (hworkspace : Leads I (byWorkspace loader s specifier) fun answer k =>
      answer.elim (I k) fun d => Q (.localFile d) k) (file : SourceFile) :
    Leads I (classify loader s file specifier) Q := by
  unfold classify
  split
  · exact .pure fun k hk => hnone _ k (by simp) hk
  · refine (hconfig file.directory).leads fun config _ => ?_
    simp only
    split
    · refine (hrule config .relative _ (by simp)).leads fun found hrelative => ?_
      cases found with
      | none => exact .pure fun k hk => hnone _ k (by simp) hk
      | some dependency => exact .pure fun k hk => hfound _ k (hrelative _ rfl) hk
    · rw [bare_eq, bind_assoc]
      refine (ownRules_rule hmanifest hrule file.directory config).leads fun found hown => ?_
      cases found with
      | some dependency =>
          rw [pure_bind]
          exact .pure fun k hk => hfound _ k (hown _ rfl) hk
      | none =>
          refine hworkspace.bind fun found => ?_
          cases found with
          | none => exact .pure fun k hk => hnone _ k (by simp) hk
          | some dependency => exact .pure fun k hk => hk

/-- What every file has that is found for a target of any rule, the specifier's file has. -/
theorem classify_rule
    (hconfig : ∀ directory, Ensures I (Knowledge.configFor loader s.root directory) fun _ => True)
    (hworkspace : Ensures I (byWorkspace loader s specifier) fun answer =>
      ∀ d, answer = some d → p d) (file : SourceFile) :
    Ensures I (classify loader s file specifier) fun answer =>
      ∀ d, answer = .localFile d → p d := by
  have hlast : Leads I (byWorkspace loader s specifier) fun answer k =>
      answer.elim (I k) fun d =>
        (∀ other, Classification.localFile d = .localFile other → p other) ∧ I k := by
    refine Leads.mono hworkspace fun answer k h => ?_
    cases answer with
    | none => exact h.2
    | some d => exact ⟨fun other hother => by cases hother; exact h.1 d rfl, h.2⟩
  refine classify_leads hmanifest hrule hconfig ?_ ?_ hlast file
  · exact fun answer k hother hk => ⟨fun d hd => absurd hd (hother d), hk⟩
  · exact fun d k hd hk => ⟨fun other hother => by cases hother; exact hd, hk⟩

end

/-! ## The rule of a dependency -/

/-- A dependency of a specifier that was found by the name of a package: the specifier starts with
the name, and the package lets the file through. -/
def NamedWithin (specifier : String) (d : LocalDependency) : Prop :=
  ∀ name, d.rule = .workspace name → ∃ package,
    (s.workspace.bind fun w => w.byName (Specifier.packageName specifier)) = some package ∧
      package.name = name ∧ (s.inside package).permits d.path = true ∧
      (s.Clean → d.path.NearlyClean)

theorem byWorkspace_namedWithin (specifier : String) :
    Ensures Tidy (byWorkspace loader s specifier) fun answer =>
      ∀ d, answer = some d → NamedWithin s specifier d := by
  refine (byWorkspace_located loader s specifier).mono fun answer hanswer d hd name hname => ?_
  obtain ⟨-, package, hpackage, hrule, hpermits, hnearly⟩ := hanswer d hd
  have hsame : Rule.workspace package.name = .workspace name := hrule.symm.trans hname
  exact ⟨package, hpackage, Rule.workspace.inj hsame, hpermits, hnearly⟩

theorem classify_namedWithin (file : SourceFile) (specifier : String) :
    Ensures Tidy (classify loader s file specifier) fun answer =>
      ∀ d, answer = .localFile d → NamedWithin s specifier d := by
  have hkeeps : ∀ {α : Type} {x : StateT Knowledge m α} {q : α → Prop}, Ensures Tidy x q →
      Ensures Tidy x fun _ => True := fun h => h.mono fun _ _ => trivial
  apply classify_rule
  · intro directory
    exact hkeeps (Knowledge.manifestFor_tidy loader s.root directory)
  · intro config rule target hothers
    refine (byRule_confined loader s specifier config rule target).mono fun answer hanswer => ?_
    intro d hd name hname
    obtain ⟨-, hrule, -⟩ := hanswer d hd
    exact absurd (hrule.symm.trans hname) (hothers name)
  · intro directory
    exact hkeeps (Knowledge.configFor_tidy loader s.root directory)
  · exact byWorkspace_namedWithin loader s specifier

end

end Classifier

end ModuleTrace
