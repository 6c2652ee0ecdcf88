import ModuleTrace.Proofs.Resolution.Keeping

/-!
# Descriptors that stay in memory

What is remembered of the descriptors of a directory stays what it is, whatever is asked behind
it. A climb only adds answers, for directories of which none was remembered, and the answer that
it gives for a directory is the one that is remembered for it then.
-/

namespace ModuleTrace.Knowledge

/-- Every answer about descriptors stays what it is. -/
structure Grows (before after : Knowledge) : Prop where
  manifests : ∀ (key : List Path.Part) (answer : Option Manifest),
    before.manifests[key]? = some answer → after.manifests[key]? = some answer
  configs : ∀ (key : List Path.Part) (answer : Option ProjectConfig),
    before.configs[key]? = some answer → after.configs[key]? = some answer

theorem Grows.refl (knowledge : Knowledge) : Grows knowledge knowledge :=
  ⟨fun _ _ h => h, fun _ _ h => h⟩

theorem Grows.trans {before middle after : Knowledge} (first : Grows before middle)
    (last : Grows middle after) : Grows before after :=
  ⟨fun key answer h => last.manifests key answer (first.manifests key answer h),
    fun key answer h => last.configs key answer (first.configs key answer h)⟩

variable {m : Type → Type} [Monad m] [LawfulMonad m] {α : Type}

omit [LawfulMonad m] in
/-- What an action leads to from every state that has grown, it leads to from all that are left
behind another action. -/
theorem leads_of_grows {I : Knowledge → Prop} {Q : α → Knowledge → Prop} {x : StateT Knowledge m α}
    (h : ∀ before, I before → Leads (Grows before) x Q) : Leads I x Q :=
  fun knowledge hknowledge => h knowledge hknowledge knowledge (.refl knowledge)

/-! ## One kind of descriptor -/

/-- A kind of descriptor of which answers are only ever added to what is known. -/
structure Kind.Lasting (kind : Kind m α) : Prop where
  known?_remember : ∀ knowledge key answer other,
    kind.known? (kind.remember knowledge key answer) other
      = if key = other then some answer else kind.known? knowledge other
  known?_sources : ∀ knowledge sources key,
    kind.known? { knowledge with sources } key = kind.known? knowledge key
  grows : ∀ knowledge key answer,
    (∀ old, kind.known? knowledge key = some old → old = answer) →
      Grows knowledge (kind.remember knowledge key answer)
  stays : ∀ before after key answer, Grows before after →
    kind.known? before key = some answer → kind.known? after key = some answer
  findIn : ∀ (I : Knowledge → Prop),
    (∀ knowledge sources, I knowledge → I { knowledge with sources }) →
      ∀ directory, Ensures I (kind.findIn directory) fun _ => True

omit [LawfulMonad m] in
theorem known_insert {entries : Std.HashMap (List Path.Part) (Option α)} {key : List Path.Part}
    {answer : Option α} (h : ∀ old, entries[key]? = some old → old = answer)
    (other : List Path.Part) (found : Option α) (hfound : entries[other]? = some found) :
    (entries.insert key answer)[other]? = some found := by
  rw [Std.HashMap.getElem?_insert]
  split
  · rename_i hkey
    rw [eq_of_beq hkey] at h
    rw [h found hfound]
  · exact hfound

theorem manifestKind_lasting (loader : Loader m) : (manifestKind loader).Lasting where
  known?_remember _ _ _ _ := by simp [manifestKind, Std.HashMap.getElem?_insert]
  known?_sources _ _ _ := rfl
  grows _ _ _ h := ⟨known_insert h, fun _ _ hold => hold⟩
  stays _ _ _ _ h hknown := h.manifests _ _ hknown
  findIn _ h := (Kept.ofDescriptors h).manifestIn

theorem configKind_lasting (loader : Loader m) : (configKind loader).Lasting where
  known?_remember _ _ _ _ := by simp [configKind, Std.HashMap.getElem?_insert]
  known?_sources _ _ _ := rfl
  grows _ _ _ h := ⟨fun _ _ hold => hold, known_insert h⟩
  stays _ _ _ _ h hknown := h.configs _ _ hknown
  findIn _ h := (Kept.ofDescriptors h).configIn

/-- What is known has grown, and it has no answer for directories that a search has passed. -/
structure Kind.Searching (kind : Kind m α) (before : Knowledge) (passed : List Path)
    (knowledge : Knowledge) : Prop where
  grown : Grows before knowledge
  unknown : ∀ x ∈ passed, kind.known? knowledge x.parts = none

section

variable {kind : Kind m α} (lasting : kind.Lasting) {root : Option Path} {before : Knowledge}

include lasting

omit [LawfulMonad m] in
theorem findIn_searching (passed : List Path) (directory : Path) :
    Ensures (kind.Searching before passed) (kind.findIn directory) fun _ => True := by
  refine lasting.findIn _ (fun k sources hk => ?_) directory
  refine ⟨⟨hk.grown.manifests, hk.grown.configs⟩, fun x hx => ?_⟩
  rw [lasting.known?_sources, hk.unknown x hx]

/-- The search passes directories of which nothing is known, and the first one is among these
unless its answer was known. By induction on the directories left. -/
theorem search_leads (directories passed : List Path) :
    Leads (kind.Searching before passed) (search kind root directories passed) fun result k =>
      kind.Searching before result.2 k ∧ passed ⊆ result.2 ∧
        ∀ directory, directories.head? = some directory →
          kind.known? k directory.parts = some result.1 ∨ directory ∈ result.2 := by
  induction directories generalizing passed with
  | nil =>
      rw [search]
      exact .pure fun k hk => ⟨hk, List.Subset.refl _, by simp⟩
  | cons directory rest ih =>
      rw [search]
      refine Leads.get.bind fun knowledge => ?_
      cases hknown : kind.known? knowledge directory.parts with
      | some answer =>
          refine .pure fun k hk => ⟨hk.2, List.Subset.refl _, fun first hfirst => ?_⟩
          cases hfirst
          exact .inl (hk.1 ▸ hknown)
      | none =>
          have hnew : ∀ k, knowledge = k ∧ kind.Searching before passed k →
              kind.Searching before (directory :: passed) k := by
            rintro k ⟨rfl, hk⟩
            exact ⟨hk.grown, List.forall_mem_cons.2 ⟨hknown, hk.unknown⟩⟩
          refine Leads.weaken ((findIn_searching lasting _ directory).leads fun answer _ => ?_) hnew
          -- The directory is passed, whether or not something is found in it.
          have hstop : ∀ answer, Leads (kind.Searching before (directory :: passed))
              (pure (answer, directory :: passed) : StateT Knowledge m _) fun result k =>
                kind.Searching before result.2 k ∧ passed ⊆ result.2 ∧
                  ∀ first, (directory :: rest).head? = some first →
                    kind.known? k first.parts = some result.1 ∨ first ∈ result.2 := by
            refine fun answer => .pure fun k hk => ⟨hk, List.subset_cons_self _ _, ?_⟩
            rintro first ⟨⟩
            exact .inr List.mem_cons_self
          cases answer with
          | some found => exact hstop (some found)
          | none =>
              simp only
              split
              · exact hstop none
              · refine (ih (directory :: passed)).mono fun result k hk => ?_
                obtain ⟨hsearching, hpassed, -⟩ := hk
                refine ⟨hsearching, List.Subset.trans (List.subset_cons_self _ _) hpassed, ?_⟩
                rintro first ⟨⟩
                exact .inr (hpassed List.mem_cons_self)

omit [LawfulMonad m] in
/-- One answer is remembered for directories of which none is known, or the same. -/
theorem foldl_remember_grows {answer : Option α} {passed : List Path} {knowledge : Knowledge}
    (hpassed : ∀ x ∈ passed, ∀ old, kind.known? knowledge x.parts = some old → old = answer) :
    let after := passed.foldl (fun knowledge directory =>
      kind.remember knowledge directory.parts answer) knowledge
    Grows knowledge after ∧ ∀ x ∈ passed, kind.known? after x.parts = some answer := by
  induction passed generalizing knowledge with
  | nil => exact ⟨.refl knowledge, by simp⟩
  | cons directory rest ih =>
      have hfirst : Grows knowledge (kind.remember knowledge directory.parts answer) :=
        lasting.grows _ _ _ (hpassed directory List.mem_cons_self)
      have hrest : ∀ x ∈ rest, ∀ old,
          kind.known? (kind.remember knowledge directory.parts answer) x.parts = some old →
            old = answer := by
        intro x hx old hold
        rw [lasting.known?_remember] at hold
        split at hold
        · exact (Option.some.inj hold).symm
        · exact hpassed x (List.mem_cons_of_mem _ hx) old hold
      obtain ⟨hgrown, hknown⟩ := ih hrest
      refine ⟨hfirst.trans hgrown, List.forall_mem_cons.2 ⟨?_, hknown⟩⟩
      exact lasting.stays _ _ _ _ hgrown (by rw [lasting.known?_remember, if_pos rfl])

/-- What is answered for a directory is remembered for it. -/
theorem nearest_leads (directory : Path) :
    Leads (Grows before) (nearest kind root directory) fun answer k =>
      Grows before k ∧ kind.known? k directory.parts = some answer := by
  have hhead : directory.ancestors.head? = some directory := by
    rw [Path.ancestors_eq]
    rfl
  unfold nearest
  have hstart : ∀ k, Grows before k → kind.Searching before [] k := fun k hk => ⟨hk, by simp⟩
  refine ((search_leads lasting directory.ancestors []).weaken hstart).bind fun result => ?_
  refine (Leads.modify (J := fun k => Grows before k ∧
    kind.known? k directory.parts = some result.1) fun k hk => ?_).bind
      fun _ => .pure fun k hk => hk
  obtain ⟨⟨hgrown, hunknown⟩, -, hdirectory⟩ := hk
  have hpassed : ∀ x ∈ result.2, ∀ old,
      kind.known? k x.parts = some old → old = result.1 := by
    intro x hx old hold
    rw [hunknown x hx] at hold
    cases hold
  obtain ⟨hadded, hknown⟩ := foldl_remember_grows lasting hpassed
  refine ⟨hgrown.trans hadded, ?_⟩
  rcases hdirectory directory hhead with hbefore | hmem
  · exact lasting.stays _ _ _ _ hadded hbefore
  · exact hknown directory hmem

end

/-! ## Both kinds -/

section

variable (loader : Loader m) (root : Option Path) {before : Knowledge}

theorem isFile_grows (path : Path) : Ensures (Grows before) (isFile loader path) fun _ => True :=
  (Kept.ofDescriptors fun _ _ h => ⟨h.manifests, h.configs⟩).isFile path

theorem manifestFor_leads (directory : Path) :
    Leads (Grows before) (manifestFor loader root directory) fun answer k =>
      Grows before k ∧ k.manifests[directory.parts]? = some answer :=
  nearest_leads (manifestKind_lasting loader) directory

theorem configFor_leads (directory : Path) :
    Leads (Grows before) (configFor loader root directory) fun answer k =>
      Grows before k ∧ k.configs[directory.parts]? = some answer :=
  nearest_leads (configKind_lasting loader) directory

end

end ModuleTrace.Knowledge
