import ModuleTrace.Proofs.Memory.Ensures
import ModuleTrace.Proofs.Path.Parts

/-!
# The nearest descriptor

The search for a descriptor goes up from a directory and remembers its answer for every directory
it has passed. What is true of an answer for a directory, for its parent and for what was
remembered before is true of all that is remembered afterwards.
-/

namespace ModuleTrace.Knowledge

section

variable {m : Type → Type} [Monad m] {α : Type}

/-- A kind of descriptor whose memory holds answers that settle their directories under an
invariant: an answer that was found in a directory settles it, and so does that of its parent
when none was found. -/
structure Kind.Recalls (kind : Kind m α) (root : Option Path)
    (Finds Settles : Option α → Path → Prop) (I : Knowledge → Prop) : Prop where
  known : ∀ knowledge, I knowledge → ∀ (directory : Path) (answer : Option α),
    kind.known? knowledge directory.parts = some answer → Settles answer directory
  remember : ∀ knowledge, I knowledge → ∀ (directory : Path) (answer : Option α),
    Settles answer directory → I (kind.remember knowledge directory.parts answer)
  findIn : ∀ directory, Ensures I (kind.findIn directory) (Finds · directory)
  found : ∀ (found : α) (directory : Path), Finds (some found) directory →
    Settles (some found) directory
  atRoot : ∀ directory : Path, Finds none directory → root.any directory.same = true →
    Settles none directory
  atParent : ∀ (answer : Option α) (directory : Path), Finds none directory →
    root.any directory.same = false → (∀ p, directory.parent? = some p → Settles answer p) →
    (directory.parent? = none → answer = none) → Settles answer directory

variable [LawfulMonad m] {kind : Kind m α} {root : Option Path}
  {Finds Settles : Option α → Path → Prop} {I : Knowledge → Prop}

/-- By induction on the directory's depth. All directories passed on the way get the answer. -/
theorem search_ensures (h : kind.Recalls root Finds Settles I) (d : Path) (passed : List Path) :
    Ensures I (search kind root d.ancestors passed) fun result =>
      Settles result.1 d ∧ ∀ x ∈ result.2, x ∈ passed ∨ Settles result.1 x := by
  induction hlength : d.parts.length using Nat.strongRecOn generalizing d passed with
  | ind length ih =>
      subst hlength
      have hcons : ∀ answer, Settles answer d →
          ∀ x ∈ d :: passed, x ∈ passed ∨ Settles answer x := by
        intro answer hsettled x hx
        rcases List.mem_cons.1 hx with rfl | hx
        · exact .inr hsettled
        · exact .inl hx
      rw [Path.ancestors_eq, search]
      refine Ensures.get.bind fun knowledge hknowledge => ?_
      cases hknown : kind.known? knowledge d.parts with
      | some answer => exact .pure ⟨h.known knowledge hknowledge d answer hknown, fun x => .inl⟩
      | none =>
          refine (h.findIn d).bind fun answer hanswer => ?_
          cases answer with
          | some found =>
              have hsettled : Settles (some found) d := h.found found d hanswer
              exact .pure ⟨hsettled, hcons _ hsettled⟩
          | none =>
              simp only
              split
              · rename_i hroot
                have hsettled := h.atRoot d hanswer hroot
                exact .pure ⟨hsettled, hcons _ hsettled⟩
              · rename_i hroot
                have hroot : root.any d.same = false := by simpa using hroot
                cases hparent : d.parent? with
                | none =>
                    have hsettled : Settles none d :=
                      h.atParent none d hanswer hroot (by simp [hparent]) fun _ => rfl
                    exact .pure ⟨hsettled, hcons _ hsettled⟩
                | some p =>
                    have hlt : p.parts.length < d.parts.length := by
                      have := Path.length_parts_parent? hparent
                      omega
                    refine (ih _ hlt p (d :: passed) rfl).mono fun result hresult => ?_
                    obtain ⟨hp, hpassed⟩ := hresult
                    have hsettled : Settles result.1 d :=
                      h.atParent result.1 d hanswer hroot (by simpa [hparent] using hp)
                        (by simp [hparent])
                    refine ⟨hsettled, fun x hx => ?_⟩
                    rcases hpassed x hx with hx | hx
                    · exact hcons _ hsettled x hx
                    · exact .inr hx

omit [LawfulMonad m] in
theorem foldl_remember (h : kind.Recalls root Finds Settles I) {answer : Option α}
    {passed : List Path} (hpassed : ∀ x ∈ passed, Settles answer x) {knowledge : Knowledge}
    (hknowledge : I knowledge) :
    I (passed.foldl (fun knowledge directory => kind.remember knowledge directory.parts answer)
      knowledge) := by
  induction passed generalizing knowledge with
  | nil => exact hknowledge
  | cons x rest ih =>
      refine ih (fun y hy => hpassed y (by simp [hy])) ?_
      exact h.remember knowledge hknowledge x answer (hpassed x (by simp))

omit [Monad m] [LawfulMonad m] in
/-- What is remembered of descriptors leaves the sources alone. -/
theorem sources_remembered
    (hquiet : ∀ knowledge key answer,
      (kind.remember knowledge key answer).sources = knowledge.sources)
    (answer : Option α) (passed : List Path) (knowledge : Knowledge) :
    (passed.foldl (fun knowledge directory => kind.remember knowledge directory.parts answer)
      knowledge).sources = knowledge.sources := by
  induction passed generalizing knowledge with
  | nil => rfl
  | cons directory rest ih => rw [List.foldl_cons, ih, hquiet]

theorem nearest_ensures (h : kind.Recalls root Finds Settles I) (d : Path) :
    Ensures I (nearest kind root d) (Settles · d) := by
  unfold nearest
  refine (search_ensures h d []).bind fun result hresult => ?_
  obtain ⟨hsettled, hpassed⟩ := hresult
  have hpassed : ∀ x ∈ result.2, Settles result.1 x := fun x hx =>
    (hpassed x hx).resolve_left (by simp)
  refine (Ensures.modify fun knowledge hknowledge => ?_).bind fun _ _ => .pure hsettled
  exact foldl_remember h hpassed hknowledge

end

end ModuleTrace.Knowledge
