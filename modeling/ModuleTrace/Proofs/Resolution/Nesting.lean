import ModuleTrace.Proofs.Memory.Trails
import ModuleTrace.Proofs.Resolution.Keeping

/-!
# How far descriptors are followed

Manifests lead to manifests and configurations extend configurations, also in circles. Told with a
note of all that are open at a time, looking for a target never has more manifests open than are
followed at all, and reading a configuration never has more extended ones open.
-/

namespace ModuleTrace

/-- No list of what is open at a time is longer than a bound. -/
def NestsWithin (bound : Nat) (trail : List (List Path)) : Prop :=
  ∀ opened ∈ trail, opened.length ≤ bound

section

variable {n : Type → Type} [Monad n] [LawfulMonad n] {bound : Nat}

theorem note_nests {opened : List Path} (h : opened.length ≤ bound) :
    Ensures (NestsWithin bound) (note opened : StateT (List (List Path)) n PUnit)
      fun _ => True := by
  apply Ensures.modify
  intro trail htrail other hother
  rcases List.mem_append.1 hother with hother | hother
  · exact htrail other hother
  · rw [List.mem_singleton.1 hother]
    exact h

/-- An action that writes no note. -/
theorem lift_nests {α : Type} (x : n α) :
    Ensures (NestsWithin bound) (liftM x : StateT (List (List Path)) n α) fun _ => True :=
  .lift (Always.top x)

/-- Of an action that starts without notes. -/
theorem always_nests {α : Type} {y : StateT (List (List Path)) n α}
    (h : Ensures (NestsWithin bound) y fun _ => True) :
    Always (fun result => NestsWithin bound result.2) (y.run []) := by
  have hempty : NestsWithin bound [] := by simp [NestsWithin]
  exact (h [] hempty).mono fun _ hresult => hresult.2

end

/-! ## Manifests -/

namespace Classifier

def firstFound {n : Type → Type} [Monad n] {α β : Type} (action : α → n (Option β)) :
    List α → n (Option β)
  | [] => return none
  | a :: rest => do
      match ← action a with
      | some found => return some found
      | none => firstFound action rest

section

variable {m : Type → Type} [Monad m] (loader : Loader m)

/-- Looks for a target with a note of each manifest that is followed, in front of those that were
followed to get to it. -/
def lookupNoted (s : Surroundings) : Nat → List Path → Path → Option ProjectConfig →
    StateT (List (List Path)) (StateT Knowledge m) (Option Path)
  | depth, opened, target, config =>
      firstFound (fun candidate =>
        match candidate with
        | .file path => liftM (tryCandidate loader s depth config (.file path))
        | .manifest path =>
            match depth with
            | 0 => return none
            | depth + 1 => do
                if config.all fun config => config.moduleResolution.allowsManifests then
                  match ← (manifestAt loader s.root path : StateT Knowledge m _) with
                  | none => return none
                  | some (directory, manifest) =>
                      note (manifest.path :: opened)
                      let config ← (Knowledge.configFor loader s.root directory :
                        StateT Knowledge m _)
                      firstFound (fun entry =>
                        lookupNoted s depth (manifest.path :: opened)
                          (directory / entry).normalize config) manifest.entries
                else return none) (probes target config)

end

section

variable {m : Type → Type} [Monad m] [LawfulMonad m]

theorem firstFound_forgets {α β : Type} {action : α → StateT Knowledge m (Option β)}
    {noted : α → StateT (List (List Path)) (StateT Knowledge m) (Option β)}
    (h : ∀ a, Forgets (noted a) (action a)) (as : List α) :
    Forgets (firstFound noted as) (firstSome action as) := by
  induction as with
  | nil => exact .pure _
  | cons a rest ih =>
      refine (h a).bind fun answer => ?_
      cases answer with
      | some found => exact .pure _
      | none => exact ih

/-- By induction on how far manifests are followed. -/
theorem lookupNoted_forgets (loader : Loader m) (s : Surroundings) (depth : Nat)
    (opened : List Path) (target : Path) (config : Option ProjectConfig) :
    Forgets (lookupNoted loader s depth opened target config)
      (lookup loader s depth target config) := by
  induction depth generalizing opened target config with
  | zero =>
      rw [lookupNoted, lookup_eq]
      apply firstFound_forgets
      intro candidate
      cases candidate with
      | file path => exact .lift _
      | manifest path => exact .pure _
  | succ depth ih =>
      rw [lookupNoted, lookup_eq]
      apply firstFound_forgets
      intro candidate
      cases candidate with
      | file path => exact .lift _
      | manifest path =>
          unfold tryCandidate
          simp only
          split
          · refine (Forgets.lift _).bind fun found => ?_
            cases found with
            | none => exact .pure _
            | some found =>
                apply Forgets.noted
                refine (Forgets.lift _).bind fun inner => ?_
                exact firstFound_forgets (fun entry => ih _ _ _) _
          · exact .pure _

theorem firstFound_nests {α β : Type} {bound : Nat}
    {noted : α → StateT (List (List Path)) (StateT Knowledge m) (Option β)} {as : List α}
    (h : ∀ a, Ensures (NestsWithin bound) (noted a) fun _ => True) :
    Ensures (NestsWithin bound) (firstFound noted as) fun _ => True := by
  induction as with
  | nil => exact .pure trivial
  | cons a rest ih =>
      refine (h a).bind fun answer _ => ?_
      cases answer with
      | some found => exact .pure trivial
      | none => exact ih

/-- What is open and what may still be followed add up to the bound. -/
theorem lookupNoted_nests (loader : Loader m) (s : Surroundings) {bound : Nat} (depth : Nat)
    {opened : List Path} (h : opened.length + depth ≤ bound) (target : Path)
    (config : Option ProjectConfig) :
    Ensures (NestsWithin bound) (lookupNoted loader s depth opened target config)
      fun _ => True := by
  induction depth generalizing opened target config with
  | zero =>
      rw [lookupNoted]
      apply firstFound_nests
      intro candidate
      cases candidate with
      | file path => exact lift_nests _
      | manifest path => exact .pure trivial
  | succ depth ih =>
      rw [lookupNoted]
      apply firstFound_nests
      intro candidate
      cases candidate with
      | file path => exact lift_nests _
      | manifest path =>
          simp only
          split
          · refine (lift_nests _).bind fun found _ => ?_
            cases found with
            | none => exact .pure trivial
            | some found =>
                have hopen : (found.2.path :: opened).length + depth ≤ bound := by
                  rw [List.length_cons]
                  omega
                refine (note_nests (by omega)).bind fun _ _ => ?_
                refine (lift_nests _).bind fun inner _ => ?_
                exact firstFound_nests fun entry => ih hopen _ inner
          · exact .pure trivial

/-- A rule's look for a target has no more manifests open than it may follow. -/
theorem lookup_nests (loader : Loader m) (s : Surroundings) (target : Path)
    (config : Option ProjectConfig) :
    Forgets (lookupNoted loader s manifestDepth [] target config)
        (lookup loader s manifestDepth target config) ∧
      Always (fun result => NestsWithin manifestDepth result.2)
        ((lookupNoted loader s manifestDepth [] target config).run []) := by
  have hopen : ([] : List Path).length + manifestDepth ≤ manifestDepth := by simp
  exact ⟨lookupNoted_forgets loader s _ [] target config,
    always_nests (lookupNoted_nests loader s _ hopen target config)⟩

end

end Classifier

/-! ## Configurations -/

namespace ProjectConfig

section

variable {n : Type → Type} [Monad n] (read : Path → n (Option String))

/-- Loads options with a note of each configuration that is extended, in front of those that
extend it on the way. -/
def loadOptionsNoted : Nat → List Path → Path → String →
    StateT (List (List Path)) n (Except ConfigError ConfigOptions)
  | depth, opened, path, contents => do
      match Json.parse? (Json.strict contents) with
      | none => return .error (.invalidJson path)
      | some json =>
          let directory := directoryOf path
          let own := ConfigOptions.ofJson directory ((json.member? "compilerOptions").getD .null)
          match depth with
          | 0 => return .ok own
          | depth + 1 =>
              let parents := (extensions json).filterMap (extendedPath? directory)
              let inherited ← parents.foldlM (fun inherited parent => do
                note (parent :: opened)
                match ← (read parent : n _) with
                | none => return inherited
                | some contents =>
                    match ← loadOptionsNoted depth (parent :: opened) parent contents with
                    | .ok options => return options.extending inherited
                    | .error _ => return inherited) ({} : ConfigOptions)
              return .ok (own.extending inherited)

end

variable {n : Type → Type} [Monad n] [LawfulMonad n] (read : Path → n (Option String))

/-- By induction on how far configurations are followed. -/
theorem loadOptionsNoted_forgets (depth : Nat) (opened : List Path) (path : Path)
    (contents : String) :
    Forgets (loadOptionsNoted read depth opened path contents)
      (loadOptions read depth path contents) := by
  induction depth generalizing opened path contents with
  | zero =>
      unfold loadOptionsNoted loadOptions
      cases Json.parse? (Json.strict contents) with
      | none => exact .pure _
      | some json => exact .pure _
  | succ depth ih =>
      unfold loadOptionsNoted loadOptions
      cases Json.parse? (Json.strict contents) with
      | none => exact .pure _
      | some json =>
          refine (Forgets.foldlM (fun inherited parent => ?_) _ _).bind fun inherited => .pure _
          apply Forgets.noted
          refine (Forgets.lift _).bind fun text => ?_
          cases text with
          | none => exact .pure _
          | some contents =>
              refine (ih _ parent contents).bind fun options => ?_
              cases options with
              | ok options => exact .pure _
              | error error => exact .pure _

/-- What is open and what may still be followed add up to the bound. -/
theorem loadOptionsNoted_nests {bound : Nat} (depth : Nat) {opened : List Path}
    (h : opened.length + depth ≤ bound) (path : Path) (contents : String) :
    Ensures (NestsWithin bound) (loadOptionsNoted read depth opened path contents)
      fun _ => True := by
  induction depth generalizing opened path contents with
  | zero =>
      unfold loadOptionsNoted
      split <;> exact .pure trivial
  | succ depth ih =>
      unfold loadOptionsNoted
      split
      · exact .pure trivial
      · refine (Ensures.foldlM (p := fun _ => True) (fun inherited parent _ _ => ?_) trivial).bind
          fun inherited _ => .pure trivial
        have hopen : (parent :: opened).length + depth ≤ bound := by
          rw [List.length_cons]
          omega
        refine (note_nests (by omega)).bind fun _ _ => ?_
        refine (lift_nests _).bind fun text _ => ?_
        cases text with
        | none => exact .pure trivial
        | some contents =>
            refine (ih hopen parent contents).bind fun options _ => ?_
            cases options with
            | ok options => exact .pure trivial
            | error error => exact .pure trivial

/-- The load of a configuration has no more extended ones open than it may follow. -/
theorem loadOptions_nests (path : Path) (contents : String) :
    Forgets (loadOptionsNoted read extensionDepth [] path contents)
        (loadOptions read extensionDepth path contents) ∧
      Always (fun result => NestsWithin extensionDepth result.2)
        ((loadOptionsNoted read extensionDepth [] path contents).run []) := by
  have hopen : ([] : List Path).length + extensionDepth ≤ extensionDepth := by simp
  exact ⟨loadOptionsNoted_forgets read _ [] path contents,
    always_nests (loadOptionsNoted_nests read _ hopen path contents)⟩

end ProjectConfig

end ModuleTrace
