import Mathlib.Data.List.Forall2
import ModuleTrace.Traversal.Session

/-!
# Guarantees of actions that remember

An action guarantees something of its values under an invariant of what is remembered: started
where the invariant holds, it gives such values and ends where the invariant holds. One rule for
each way to put actions together carries guarantees from small actions to large ones, in any
lawful monad.
-/

namespace ModuleTrace

section

variable {m : Type → Type} [Monad m] [LawfulMonad m] {α β σ : Type}

/-- Every value that an action can give has a property: the action is one that gives values
together with proofs of it, with the proofs dropped. -/
def Always (p : α → Prop) (x : m α) : Prop :=
  ∃ y : m { a // p a }, Subtype.val <$> y = x

namespace Always

theorem pure {p : α → Prop} {a : α} (h : p a) : Always p (pure a : m α) :=
  ⟨Pure.pure ⟨a, h⟩, by simp⟩

theorem bind {p : α → Prop} {q : β → Prop} {x : m α} {f : α → m β} (hx : Always p x)
    (hf : ∀ a, p a → Always q (f a)) : Always q (x >>= f) := by
  obtain ⟨y, rfl⟩ := hx
  refine ⟨y >>= fun a => (hf a.1 a.2).choose, ?_⟩
  rw [map_bind, bind_map_left]
  exact bind_congr fun a => (hf a.1 a.2).choose_spec

theorem top (x : m α) : Always (fun _ => True) x :=
  ⟨(fun a => ⟨a, trivial⟩) <$> x, by simp⟩

theorem mono {p q : α → Prop} {x : m α} (hx : Always p x) (h : ∀ a, p a → q a) :
    Always q x := by
  rw [← bind_pure x]
  exact hx.bind fun a ha => .pure (h a ha)

theorem forall_mapM {p : β → Prop} {f : α → m β} {as : List α} (hf : ∀ a ∈ as, Always p (f a)) :
    Always (fun bs => ∀ b ∈ bs, p b) (as.mapM f) := by
  induction as with
  | nil => exact .pure (by simp)
  | cons a as ih =>
      rw [List.mapM_cons]
      refine (hf a (by simp)).bind fun b hb => ?_
      refine (ih fun a' ha' => hf a' (by simp [ha'])).bind fun bs hbs => .pure ?_
      simpa using ⟨hb, hbs⟩

/-- A value that is always the same one goes with all that holds of what stands beside it. -/
theorem and_fst {x : m (α × σ)} {a : α} {p : σ → Prop} (ha : Always (fun r => r.1 = a) x)
    (hp : Always (fun r => p r.2) x) : Always (fun r => r.1 = a ∧ p r.2) x := by
  have hconst : (fun r : α × σ => (a, r.2)) <$> x = x := by
    obtain ⟨y, rfl⟩ := ha
    rw [Functor.map_map]
    have hsame : (fun r : { r : α × σ // r.1 = a } => (a, r.1.2)) = Subtype.val :=
      funext fun r => Prod.ext r.2.symm rfl
    rw [hsame]
  obtain ⟨z, hz⟩ := hp
  refine ⟨(fun r => ⟨(a, r.1.2), rfl, r.2⟩) <$> z, ?_⟩
  rw [Functor.map_map]
  calc (fun r : { r : α × σ // p r.2 } => (a, r.1.2)) <$> z
      = (fun r : α × σ => (a, r.2)) <$> Subtype.val <$> z := by rw [Functor.map_map]
    _ = (fun r : α × σ => (a, r.2)) <$> x := by rw [hz]
    _ = x := hconst

end Always

/-- Without effects there is one value. -/
theorem always_id {p : α → Prop} {x : Id α} : Always p x ↔ p x.run :=
  ⟨fun ⟨y, hy⟩ => hy ▸ y.run.2, fun h => Always.pure (m := Id) h⟩

/-- Started where a condition holds, an action gives values and ends in states that fit them. -/
def Leads (I : σ → Prop) (x : StateT σ m α) (Q : α → σ → Prop) : Prop :=
  ∀ state, I state → Always (fun result => Q result.1 result.2) (x.run state)

namespace Leads

variable {I : σ → Prop} {Q : α → σ → Prop}

theorem pure {a : α} (h : ∀ state, I state → Q a state) : Leads I (pure a : StateT σ m α) Q :=
  fun state hstate => Always.pure (m := m) (h state hstate)

theorem bind {R : β → σ → Prop} {x : StateT σ m α} {f : α → StateT σ m β} (hx : Leads I x Q)
    (hf : ∀ a, Leads (Q a) (f a) R) : Leads I (x >>= f) R := by
  intro state hstate
  rw [StateT.run_bind]
  exact (hx state hstate).bind fun result hresult => hf result.1 result.2 hresult

theorem mono {R : α → σ → Prop} {x : StateT σ m α} (hx : Leads I x Q)
    (h : ∀ a state, Q a state → R a state) : Leads I x R :=
  fun state hstate => (hx state hstate).mono fun _ hresult => h _ _ hresult

omit [LawfulMonad m] in
theorem weaken {J : σ → Prop} {x : StateT σ m α} (hx : Leads I x Q)
    (h : ∀ state, J state → I state) : Leads J x Q :=
  fun state hstate => hx state (h state hstate)

omit [LawfulMonad m] in
theorem of_exists {γ : Type} {p : γ → Prop} {J : γ → σ → Prop} {x : StateT σ m α}
    (h : ∀ c, p c → Leads (J c) x Q) : Leads (fun state => ∃ c, p c ∧ J c state) x Q :=
  fun state ⟨c, hc, hstate⟩ => h c hc state hstate

omit [LawfulMonad m] in
theorem of_forall {γ : Type} {J : γ → σ → Prop} {x : StateT σ m α}
    (h : ∀ c, Leads (J c) x Q) : Leads (fun state => ∃ c, J c state) x Q :=
  fun state ⟨c, hstate⟩ => h c state hstate

theorem get : Leads I (get : StateT σ m σ) fun value state => value = state ∧ I state := by
  intro state hstate
  rw [StateT.run_get]
  exact .pure ⟨rfl, hstate⟩

theorem modify {f : σ → σ} {J : σ → Prop} (h : ∀ state, I state → J (f state)) :
    Leads I (modify f : StateT σ m PUnit) fun _ => J := by
  intro state hstate
  rw [StateT.run_modify]
  exact .pure (h state hstate)

end Leads

/-- Started where the invariant holds, an action gives values with a property and ends where the
invariant holds. -/
def Ensures (I : σ → Prop) (x : StateT σ m α) (p : α → Prop) : Prop :=
  Leads I x fun value state => p value ∧ I state

namespace Ensures

variable {I : σ → Prop}

theorem pure {p : α → Prop} {a : α} (h : p a) : Ensures I (pure a : StateT σ m α) p :=
  Leads.pure fun _ hstate => ⟨h, hstate⟩

/-- An action that keeps the invariant, then one that starts from it. -/
theorem leads {p : α → Prop} {R : β → σ → Prop} {x : StateT σ m α} {f : α → StateT σ m β}
    (hx : Ensures I x p) (hf : ∀ a, p a → Leads I (f a) R) : Leads I (x >>= f) R :=
  Leads.bind hx fun a state hstate => hf a hstate.1 state hstate.2

theorem bind {p : α → Prop} {q : β → Prop} {x : StateT σ m α} {f : α → StateT σ m β}
    (hx : Ensures I x p) (hf : ∀ a, p a → Ensures I (f a) q) : Ensures I (x >>= f) q :=
  hx.leads hf

theorem mono {p q : α → Prop} {x : StateT σ m α} (hx : Ensures I x p) (h : ∀ a, p a → q a) :
    Ensures I x q :=
  Leads.mono hx fun a _ hstate => ⟨h a hstate.1, hstate.2⟩

/-- Nothing is asked for. -/
theorem top (x : StateT σ m α) : Ensures (fun _ => True) x fun _ => True :=
  fun state _ => (Always.top (x.run state)).mono fun _ _ => ⟨trivial, trivial⟩

theorem get : Ensures I (get : StateT σ m σ) I :=
  Leads.get.mono fun _ _ hstate => ⟨hstate.1 ▸ hstate.2, hstate.2⟩

theorem modify {f : σ → σ} (h : ∀ state, I state → I (f state)) :
    Ensures I (modify f : StateT σ m PUnit) fun _ => True :=
  (Leads.modify h).mono fun _ _ hstate => ⟨trivial, hstate⟩

theorem lift {p : α → Prop} {x : m α} (h : Always p x) :
    Ensures I (liftM x : StateT σ m α) p := by
  intro state hstate
  show Always _ ((StateT.lift x).run state)
  rw [StateT.run_lift]
  exact h.bind fun a ha => .pure ⟨ha, hstate⟩

/-- Values of one list of actions, one by one. -/
theorem mapM {γ : Type} {R : α → β → Prop} {S : γ → β → Prop} {f : α → StateT σ m γ}
    (hf : ∀ a b, R a b → Ensures I (f a) (S · b)) {as : List α} {bs : List β}
    (h : List.Forall₂ R as bs) : Ensures I (as.mapM f) (List.Forall₂ S · bs) := by
  induction h with
  | nil => exact .pure .nil
  | cons hab _ ih =>
      rw [List.mapM_cons]
      exact (hf _ _ hab).bind fun c hc => ih.bind fun cs hcs => .pure (.cons hc hcs)

theorem forall_mapM {p : β → Prop} {f : α → StateT σ m β} {as : List α}
    (hf : ∀ a ∈ as, Ensures I (f a) p) : Ensures I (as.mapM f) fun bs => ∀ b ∈ bs, p b := by
  induction as with
  | nil => exact .pure (by simp)
  | cons a as ih =>
      rw [List.mapM_cons]
      refine (hf a (by simp)).bind fun b hb => ?_
      refine (ih fun a' ha' => hf a' (by simp [ha'])).bind fun bs hbs => .pure ?_
      simpa using ⟨hb, hbs⟩

theorem foldlM {p : β → Prop} {f : β → α → StateT σ m β} {as : List α}
    (hf : ∀ b a, a ∈ as → p b → Ensures I (f b a) p) {b : β} (hb : p b) :
    Ensures I (as.foldlM f b) p := by
  induction as generalizing b with
  | nil => exact .pure hb
  | cons a as ih =>
      rw [List.foldlM_cons]
      exact (hf b a (by simp) hb).bind fun c hc =>
        ih (fun b' a' ha' => hf b' a' (by simp [ha'])) hc

end Ensures

end

/-! ## Actions on a part of what is remembered -/

section

variable {m : Type → Type} [Monad m] [LawfulMonad m] {α : Type}

theorem Leads.withSources {I : Knowledge → Prop} {J : SourceCache → Prop}
    {Q : α → SourceCache → Prop} {R : α → Knowledge → Prop} {x : StateT SourceCache m α}
    (hx : Leads J x Q) (hout : ∀ k, I k → J k.sources)
    (hback : ∀ a k sources, I k → Q a sources → R a { k with sources }) :
    Leads I (Knowledge.withSources x) R := by
  intro knowledge hknowledge
  have hrun : (Knowledge.withSources x).run knowledge = (do
      let result ← x.run knowledge.sources
      return (result.1, { knowledge with sources := result.2 }) : m (α × Knowledge)) := by
    simp [Knowledge.withSources]
  rw [hrun]
  exact (hx _ (hout _ hknowledge)).bind fun result hresult =>
    .pure (hback _ _ _ hknowledge hresult)

theorem Ensures.withSources {I : Knowledge → Prop} {J : SourceCache → Prop} {p : α → Prop}
    {x : StateT SourceCache m α} (hx : Ensures J x p) (hout : ∀ k, I k → J k.sources)
    (hback : ∀ k sources, I k → J sources → I { k with sources }) :
    Ensures I (Knowledge.withSources x) p :=
  Leads.withSources hx hout fun _ _ _ hk h => ⟨h.1, hback _ _ hk h.2⟩

theorem Leads.withKnowledge {I : Memory → Prop} {J : Knowledge → Prop}
    {Q : α → Knowledge → Prop} {R : α → Memory → Prop} {x : StateT Knowledge m α}
    (hx : Leads J x Q) (hout : ∀ k, I k → J k.knowledge)
    (hback : ∀ a k knowledge, I k → Q a knowledge → R a { k with knowledge }) :
    Leads I (Session.withKnowledge x) R := by
  intro memory hmemory
  have hrun : (Session.withKnowledge x).run memory = (do
      let result ← x.run memory.knowledge
      return (result.1, { memory with knowledge := result.2 }) : m (α × Memory)) := by
    simp [Session.withKnowledge]
  rw [hrun]
  exact (hx _ (hout _ hmemory)).bind fun result hresult =>
    .pure (hback _ _ _ hmemory hresult)

theorem Ensures.withKnowledge {I : Memory → Prop} {J : Knowledge → Prop} {p : α → Prop}
    {x : StateT Knowledge m α} (hx : Ensures J x p) (hout : ∀ k, I k → J k.knowledge)
    (hback : ∀ k knowledge, I k → J knowledge → I { k with knowledge }) :
    Ensures I (Session.withKnowledge x) p :=
  Leads.withKnowledge hx hout fun _ _ _ hk h => ⟨h.1, hback _ _ hk h.2⟩

end

/-! ## Guarantees without effects -/

theorem leads_id {σ α : Type} {I : σ → Prop} {x : StateT σ Id α} {Q : α → σ → Prop} :
    Leads I x Q ↔ ∀ state, I state → Q (x.run state).run.1 (x.run state).run.2 :=
  forall₂_congr fun _ _ => always_id

/-- All that one run leads to, it leads to at once. -/
theorem Leads.and_of_id {σ α : Type} {I : σ → Prop} {x : StateT σ Id α} {Q R : α → σ → Prop}
    (hQ : Leads I x Q) (hR : Leads I x R) : Leads I x fun a state => Q a state ∧ R a state := by
  rw [leads_id] at hQ hR ⊢
  exact fun state hstate => ⟨hQ state hstate, hR state hstate⟩

/-- Without effects a guarantee speaks of the one run. -/
theorem ensures_id {σ α : Type} {I : σ → Prop} {x : StateT σ Id α} {p : α → Prop} :
    Ensures I x p ↔ ∀ state, I state → p (x.run state).run.1 ∧ I (x.run state).run.2 :=
  forall₂_congr fun _ _ => always_id

section

variable {α β γ σ : Type} {I : σ → Prop}

/-- The one run has all the properties that it has one by one. -/
theorem Ensures.forall_of_id {q : γ → Prop} {p : γ → α → Prop} {x : StateT σ Id α}
    (hq : ∃ c, q c) (h : ∀ c, q c → Ensures I x (p c)) :
    Ensures I x fun a => ∀ c, q c → p c a := by
  rw [ensures_id]
  intro state hstate
  have hc := fun c hc => ensures_id.1 (h c hc) state hstate
  obtain ⟨c, hqc⟩ := hq
  exact ⟨fun c hqc => (hc c hqc).1, (hc c hqc).2⟩

/-- Programs put together give what the plain ones put together give. -/
theorem Ensures.bind_eq {x : StateT σ Id α} {y : Id α} {f : α → StateT σ Id β} {g : α → Id β}
    (hx : Ensures I x (· = y.run)) (hf : ∀ a, Ensures I (f a) (· = (g a).run)) :
    Ensures I (x >>= f) (· = (y >>= g).run) := by
  refine hx.bind fun a ha => ?_
  subst ha
  exact hf _

/-- A fold gives what the fold of plain values gives. -/
theorem Ensures.foldlM_eq {f : β → α → StateT σ Id β} {g : β → α → Id β}
    (h : ∀ b a, Ensures I (f b a) (· = (g b a).run)) (as : List α) (b : β) :
    Ensures I (as.foldlM f b) (· = (as.foldlM g b).run) := by
  induction as generalizing b with
  | nil => exact .pure rfl
  | cons a as ih =>
      rw [List.foldlM_cons, List.foldlM_cons]
      exact (h b a).bind_eq ih

end

/-! ## Entries -/

/-- What is under a key after an insertion was inserted or was there before. -/
theorem insert_entry_cases {α β : Type} [BEq α] [LawfulBEq α] [Hashable α]
    {entries : Std.HashMap α β} {key other : α} {value found : β}
    (h : (entries.insert key value)[other]? = some found) :
    (key = other ∧ value = found) ∨ entries[other]? = some found := by
  rw [Std.HashMap.getElem?_insert] at h
  by_cases hkey : key = other
  · exact .inl ⟨hkey, by simpa [hkey] using h⟩
  · exact .inr (by simpa [hkey] using h)

end ModuleTrace
