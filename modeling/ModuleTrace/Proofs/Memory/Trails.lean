import ModuleTrace.Proofs.Memory.Ensures

/-!
# Actions that leave a trail

To say what happens on the way of an action, and not only what it gives in the end, the action is
told once more with notes of what happens. With its notes dropped it must be the action itself.
-/

namespace ModuleTrace

section

variable {n : Type → Type} [Monad n] {α β τ : Type}

def note (t : τ) : StateT (List τ) n PUnit :=
  modify (· ++ [t])

/-- With its trail dropped the one action is the other. -/
def Forgets (y : StateT τ n α) (x : n α) : Prop :=
  ∀ trail, Prod.fst <$> y.run trail = x

namespace Forgets

variable [LawfulMonad n]

theorem pure (a : α) : Forgets (pure a : StateT τ n α) (Pure.pure a) := by
  intro trail
  rw [StateT.run_pure, map_pure]

theorem lift (x : n α) : Forgets (liftM x : StateT τ n α) x := by
  intro trail
  show Prod.fst <$> (StateT.lift x).run trail = x
  rw [StateT.run_lift, map_bind]
  simp

theorem bind {y : StateT τ n α} {x : n α} {g : α → StateT τ n β} {f : α → n β}
    (hy : Forgets y x) (hg : ∀ a, Forgets (g a) (f a)) : Forgets (y >>= g) (x >>= f) := by
  intro trail
  rw [StateT.run_bind, map_bind]
  calc (y.run trail >>= fun r => Prod.fst <$> (g r.1).run r.2)
      = y.run trail >>= fun r => f r.1 := bind_congr fun r => hg r.1 r.2
    _ = Prod.fst <$> y.run trail >>= f := (bind_map_left _ _ _).symm
    _ = x >>= f := by rw [hy trail]

theorem foldlM {noted : β → α → StateT τ n β} {step : β → α → n β}
    (h : ∀ b a, Forgets (noted b a) (step b a)) (as : List α) (b : β) :
    Forgets (as.foldlM noted b) (as.foldlM step b) := by
  induction as generalizing b with
  | nil => exact .pure _
  | cons a rest ih =>
      rw [List.foldlM_cons, List.foldlM_cons]
      exact (h b a).bind ih

/-- A note in front changes nothing. -/
theorem noted {t : τ} {y : StateT (List τ) n α} {x : n α} (hy : Forgets y x) :
    Forgets (do note t; y) x := by
  intro trail
  rw [StateT.run_bind, note, StateT.run_modify, pure_bind]
  exact hy _

end Forgets

end

/-- An action with a trail gives what it gives without. -/
theorem Forgets.leads_of_id {α σ τ : Type} {I : σ → Prop} {y : StateT τ (StateT σ Id) α}
    {x : StateT σ Id α} {p : α → Prop} (hforgets : Forgets y x) (hx : Ensures I x p) (trail : τ) :
    Leads I (y.run trail) fun result _ => p result.1 := by
  rw [ensures_id] at hx
  rw [leads_id]
  intro state hstate
  have hvalue := (hx state hstate).1
  rw [← hforgets trail] at hvalue
  exact hvalue

/-! ## Guarantees along a trail -/

section

variable {m : Type → Type} [Monad m] [LawfulMonad m] {α β σ τ : Type}

/-- Started where a condition holds, an action gives values and ends in states that fit them, and
all its notes have a property. -/
def LeadsAlong (p : τ → Prop) (I : σ → Prop) (y : StateT (List τ) (StateT σ m) α)
    (Q : α → σ → Prop) : Prop :=
  ∀ trail, (∀ t ∈ trail, p t) → Leads I (y.run trail) fun result state =>
    Q result.1 state ∧ ∀ t ∈ result.2, p t

namespace LeadsAlong

variable {p : τ → Prop} {I : σ → Prop} {Q : α → σ → Prop}

theorem pure {a : α} (h : ∀ state, I state → Q a state) :
    LeadsAlong p I (pure a : StateT (List τ) (StateT σ m) α) Q := by
  intro trail htrail
  rw [StateT.run_pure]
  exact .pure fun state hstate => ⟨h state hstate, htrail⟩

theorem bind {R : β → σ → Prop} {y : StateT (List τ) (StateT σ m) α}
    {g : α → StateT (List τ) (StateT σ m) β} (hy : LeadsAlong p I y Q)
    (hg : ∀ a, LeadsAlong p (Q a) (g a) R) : LeadsAlong p I (y >>= g) R := by
  intro trail htrail
  rw [StateT.run_bind]
  refine (hy trail htrail).bind fun result => ?_
  intro state hstate
  exact hg result.1 result.2 hstate.2 state hstate.1

theorem lift {x : StateT σ m α} (hx : Leads I x Q) :
    LeadsAlong p I (liftM x : StateT (List τ) (StateT σ m) α) Q := by
  intro trail htrail
  show Leads I ((StateT.lift x).run trail) _
  rw [StateT.run_lift]
  exact hx.bind fun a => .pure fun state hstate => ⟨hstate, htrail⟩

/-- An action that keeps the invariant, then one that starts from it. -/
theorem lift_bind {q : α → Prop} {R : β → σ → Prop} {x : StateT σ m α}
    {g : α → StateT (List τ) (StateT σ m) β} (hx : Ensures I x q)
    (hg : ∀ a, q a → LeadsAlong p I (g a) R) :
    LeadsAlong p I (liftM x >>= g : StateT (List τ) (StateT σ m) β) R :=
  (lift hx).bind fun a trail htrail state hstate => hg a hstate.1 trail htrail state hstate.2

theorem noted {t : τ} (ht : p t) {y : StateT (List τ) (StateT σ m) α} (hy : LeadsAlong p I y Q) :
    LeadsAlong p I (do note t; y) Q := by
  intro trail htrail
  rw [StateT.run_bind, note, StateT.run_modify, pure_bind]
  apply hy
  intro other hother
  rcases List.mem_append.1 hother with hother | hother
  · exact htrail other hother
  · rw [List.mem_singleton.1 hother]
    exact ht

omit [LawfulMonad m] in
theorem weaken {J : σ → Prop} {y : StateT (List τ) (StateT σ m) α} (hy : LeadsAlong p I y Q)
    (h : ∀ state, J state → I state) : LeadsAlong p J y Q :=
  fun trail htrail => (hy trail htrail).weaken h

omit [LawfulMonad m] in
theorem of_exists {γ : Type} {J : γ → σ → Prop} {y : StateT (List τ) (StateT σ m) α}
    (h : ∀ c, LeadsAlong p (J c) y Q) : LeadsAlong p (fun state => ∃ c, J c state) y Q :=
  fun trail htrail state ⟨c, hstate⟩ => h c trail htrail state hstate

/-- What is led to along a trail is led to without it. -/
theorem forget {y : StateT (List τ) (StateT σ m) α} {x : StateT σ m α} (hy : LeadsAlong p I y Q)
    (hforgets : Forgets y x) : Leads I x Q := by
  rw [← hforgets [], map_eq_pure_bind]
  refine (hy [] (by simp)).bind fun result => ?_
  exact .pure fun state hstate => hstate.1

end LeadsAlong

end

end ModuleTrace
