import Mathlib.Data.List.Forall2
import Mathlib.Order.Defs.Unbundled
import RecordFormat.Proofs.Traversal

/-!
# Steps that keep an invariant

A step with a state may fail, and keeps the state it has reached either way. `Ends` says what
is true afterwards: the invariant holds, the state is a later one, and what was returned has a
property there. Sequences and traversals of such steps are such steps. `FailsOnly` says why a step
may fail, `Succeeds` that it does not fail, `Follows` compares it with a computation that has no
state, and `Agrees` compares it with another step from another state.
-/

namespace RecordFormat.Steps

open Outcome (Alike Faults)

variable {σ ε α β γ : Type} {later : σ → σ → Prop} {I : σ → Prop} {s : σ}

/-- The second step is taken from where the first one succeeds. -/
theorem run_bind (x : ExceptT ε (StateM σ) α) (f : α → ExceptT ε (StateM σ) β) (s : σ) :
    (x >>= f).run s = match x.run s with
      | (.ok a, s') => (f a).run s'
      | (.error e, s') => (.error e, s') := by
  show (ExceptT.bind x f).run s = _
  simp only [ExceptT.bind, ExceptT.mk, ExceptT.run, Bind.bind, StateT.bind, ExceptT.bindCont]
  rcases x s with ⟨_ | _, _⟩ <;> rfl

theorem run_bind_eq_ok_iff {x : ExceptT ε (StateM σ) α} {f : α → ExceptT ε (StateM σ) β} {b : β}
    {t : σ} : (x >>= f).run s = (.ok b, t) ↔
      ∃ a s', x.run s = (.ok a, s') ∧ (f a).run s' = (.ok b, t) := by
  rw [run_bind]
  rcases x.run s with ⟨e | a, s'⟩
  · exact ⟨nofun, nofun⟩
  · exact ⟨fun h => ⟨a, s', rfl, h⟩, fun ⟨_, _, rfl, h⟩ => h⟩

/-- What is true when `x` was run from `s`, whether it failed or not. -/
structure Ends (later : σ → σ → Prop) (I : σ → Prop) (Q : α → σ → Prop)
    (x : ExceptT ε (StateM σ) α) (s : σ) : Prop where
  keeps : I (x.run s).2
  after : later s (x.run s).2
  returns : ∀ a, (x.run s).1 = .ok a → Q a (x.run s).2

namespace Ends

variable {Q : α → σ → Prop} {R : β → σ → Prop} {x : ExceptT ε (StateM σ) α}

theorem imp {Q' : α → σ → Prop} (h : Ends later I Q x s)
    (imp : ∀ a s', I s' → later s s' → Q a s' → Q' a s') : Ends later I Q' x s :=
  ⟨h.keeps, h.after, fun a eq => imp a _ h.keeps h.after (h.returns a eq)⟩

theorem pure [Std.Refl later] {a : α} (here : I s) (result : Q a s) :
    Ends later I Q (Pure.pure a : ExceptT ε (StateM σ) α) s where
  keeps := here
  after := Std.Refl.refl s
  returns _ eq := by
    cases eq
    exact result

theorem throw [Std.Refl later] {e : ε} (here : I s) :
    Ends later I Q (MonadExcept.throw e : ExceptT ε (StateM σ) α) s where
  keeps := here
  after := Std.Refl.refl s
  returns _ eq := nomatch eq

theorem liftExcept [Std.Refl later] {e : Except ε α} (here : I s)
    (result : ∀ a, e = .ok a → Q a s) :
    Ends later I Q (liftExcept e : ExceptT ε (StateM σ) α) s := by
  cases e with
  | error e => exact throw here
  | ok a => exact pure here (result a rfl)

theorem get [Std.Refl later] (here : I s) :
    Ends later I (fun a s' => a = s' ∧ s' = s) (MonadState.get : ExceptT ε (StateM σ) σ) s where
  keeps := here
  after := Std.Refl.refl s
  returns _ eq := by
    cases eq
    exact ⟨rfl, rfl⟩

theorem modify {f : σ → σ} (here : I (f s)) (after : later s (f s)) :
    Ends later I (fun _ s' => s' = f s) (modify f : ExceptT ε (StateM σ) PUnit) s where
  keeps := here
  after := after
  returns _ _ := rfl

/-- A step that cannot fail. -/
theorem lift {x : StateM σ α} (keeps : I (x s).2) (after : later s (x s).2)
    (result : Q (x s).1 (x s).2) :
    Ends later I Q (liftM x : ExceptT ε (StateM σ) α) s where
  keeps := keeps
  after := after
  returns _ eq := by
    cases eq
    exact result

/-- The state that is reached may be described by less. -/
theorem weaken {later' : σ → σ → Prop} (h : Ends later I Q x s)
    (less : ∀ s', later s s' → later' s s') : Ends later' I Q x s :=
  ⟨h.keeps, less _ h.after, h.returns⟩

/-- One step after the other. -/
theorem bind [IsTrans σ later] {f : α → ExceptT ε (StateM σ) β} (first : Ends later I Q x s)
    (next : ∀ a s', I s' → later s s' → Q a s' → Ends later I R (f a) s') :
    Ends later I R (x >>= f) s := by
  have run := run_bind x f s
  obtain ⟨keeps, after, returns⟩ := first
  rcases result : x.run s with ⟨outcome, s'⟩
  rw [result] at run keeps after returns
  cases outcome with
  | error e =>
      exact ⟨by rw [run]; exact keeps, by rw [run]; exact after, by rw [run]; exact nofun⟩
  | ok a =>
      have rest := next a s' keeps after (returns a rfl)
      exact ⟨by rw [run]; exact rest.keeps, by rw [run]; exact IsTrans.trans _ _ _ after rest.after,
        by rw [run]; exact rest.returns⟩

/-- A traversal returns what each of its steps returns. -/
theorem mapM [Std.Refl later] [IsTrans σ later] {G : α → β → σ → Prop}
    {f : α → ExceptT ε (StateM σ) β}
    (stable : ∀ a b s s', later s s' → G a b s → G a b s') : ∀ {xs : List α} {s : σ}, I s →
    (∀ a ∈ xs, ∀ s', I s' → later s s' → Ends later I (G a) (f a) s') →
      Ends later I (fun bs s' => List.Forall₂ (fun a b => G a b s') xs bs) (xs.mapM f) s
  | [], s, here, _ => by
      rw [List.mapM_nil]
      exact pure here .nil
  | a :: rest, s, here, steps => by
      rw [List.mapM_cons]
      refine (steps a (List.mem_cons_self ..) s here (Std.Refl.refl s)).bind
        fun b s₁ inv₁ after₁ hb => ?_
      refine (mapM stable inv₁ fun a' ha' s' inv after =>
        steps a' (List.mem_cons_of_mem _ ha') s' inv (IsTrans.trans _ _ _ after₁ after)).bind
          fun bs s₂ inv₂ after₂ hbs => ?_
      exact pure inv₂ (.cons (stable a b s₁ s₂ after₂ hb) hbs)

end Ends

/-! ## Steps that fail for few reasons -/

/-- From `s`, every failure of the step has the property `P`. -/
def FailsOnly (P : ε → Prop) (x : ExceptT ε (StateM σ) α) (s : σ) : Prop :=
  Faults P (x.run s).1

namespace FailsOnly

variable {P : ε → Prop} {Q : α → σ → Prop} {x : ExceptT ε (StateM σ) α}

theorem pure (a : α) : FailsOnly P (Pure.pure a : ExceptT ε (StateM σ) α) s := Faults.ok a

theorem throw {e : ε} (reason : P e) :
    FailsOnly P (MonadExcept.throw e : ExceptT ε (StateM σ) α) s := Faults.error reason

theorem liftExcept {y : Except ε α} (reasons : Faults P y) :
    FailsOnly P (liftExcept y : ExceptT ε (StateM σ) α) s := by
  cases y with
  | error e => exact throw (reasons e rfl)
  | ok a => exact pure a

/-- One step after the other, the second one from wherever the first one ends. -/
theorem bind {f : α → ExceptT ε (StateM σ) β} (first : FailsOnly P x s)
    (ends : Ends later I Q x s)
    (next : ∀ a s', I s' → later s s' → Q a s' → FailsOnly P (f a) s') :
    FailsOnly P (x >>= f) s := by
  intro e failed
  obtain ⟨keeps, after, returns⟩ := ends
  have first := first e
  rw [run_bind] at failed
  rcases result : x.run s with ⟨outcome, s'⟩
  rw [result] at failed first keeps after returns
  cases outcome with
  | error e' =>
      cases failed
      exact first rfl
  | ok a => exact next a s' keeps after (returns a rfl) e failed

theorem mapM [Std.Refl later] [IsTrans σ later] {f : α → ExceptT ε (StateM σ) β} :
    ∀ {xs : List α} {s : σ}, I s →
      (∀ a ∈ xs, ∀ s', I s' → later s s' →
        FailsOnly P (f a) s' ∧ Ends later I (fun _ _ => True) (f a) s') →
      FailsOnly P (xs.mapM f) s
  | [], s, _, _ => by
      rw [List.mapM_nil]
      exact pure []
  | a :: rest, s, here, steps => by
      rw [List.mapM_cons]
      obtain ⟨first, ends⟩ := steps a (List.mem_cons_self ..) s here (Std.Refl.refl s)
      refine first.bind ends fun b s₁ inv₁ after₁ _ => ?_
      have later : ∀ a' ∈ rest, ∀ s', I s' → later s₁ s' →
          FailsOnly P (f a') s' ∧ Ends later I (fun _ _ => True) (f a') s' :=
        fun a' ha' s' inv after =>
          steps a' (List.mem_cons_of_mem _ ha') s' inv (IsTrans.trans _ _ _ after₁ after)
      have ended := Ends.mapM (G := fun _ _ _ => True) (fun _ _ _ _ _ same => same) inv₁
        fun a' ha' s' inv after => (later a' ha' s' inv after).2
      exact (mapM inv₁ later).bind ended fun bs s₂ _ _ _ => pure (b :: bs)

end FailsOnly

/-! ## Steps that succeed as a computation without state does -/

/-- From `s`, the step keeps the invariant and fails when and as `y` does. -/
structure Follows (I : σ → Prop) (x : ExceptT ε (StateM σ) α) (y : Except ε γ) (s : σ) : Prop where
  keeps : I (x.run s).2
  alike : Alike (fun _ _ => True) (x.run s).1 y

namespace Follows

variable {x : ExceptT ε (StateM σ) α} {y : Except ε γ}

theorem pure {a : α} {c : γ} (here : I s) :
    Follows I (Pure.pure a : ExceptT ε (StateM σ) α) (.ok c : Except ε γ) s :=
  ⟨here, .ok trivial⟩

theorem throw {e : ε} (here : I s) :
    Follows I (MonadExcept.throw e : ExceptT ε (StateM σ) α) (.error e : Except ε γ) s :=
  ⟨here, .error e⟩

theorem liftExcept {e : Except ε α} (here : I s) :
    Follows I (liftExcept e : ExceptT ε (StateM σ) α) e s := by
  cases e with
  | error e => exact throw here
  | ok a => exact pure here

/-- A step that only looks at the state. -/
theorem look {f : α → ExceptT ε (StateM σ) β} {a : α} (looks : x.run s = (.ok a, s))
    (next : Follows I (f a) y s) : Follows I (x >>= f) y s := by
  have run := run_bind x f s
  rw [looks] at run
  exact ⟨run ▸ next.keeps, run ▸ next.alike⟩

/-- One step after the other, on both sides. -/
theorem bind {δ : Type} {f : α → ExceptT ε (StateM σ) β} {g : γ → Except ε δ}
    (first : Follows I x y s)
    (next : ∀ a c s', I s' → y = .ok c → Follows I (f a) (g c) s') :
    Follows I (x >>= f) (y >>= g) s := by
  have run := run_bind x f s
  obtain ⟨keeps, alike⟩ := first
  rcases result : x.run s with ⟨outcome, s'⟩
  rw [result] at run keeps alike
  cases outcome with
  | error e =>
      cases alike
      exact ⟨run ▸ keeps, run ▸ .error e⟩
  | ok a =>
      cases y with
      | error e => cases alike
      | ok c =>
          have rest := next a c s' keeps rfl
          exact ⟨run ▸ rest.keeps, run ▸ rest.alike⟩

/-- A last step, which does not fail. -/
theorem finish {f : α → ExceptT ε (StateM σ) β} (first : Follows I x y s)
    (next : ∀ a c s', I s' → y = .ok c → Follows I (f a) (.ok c : Except ε γ) s') :
    Follows I (x >>= f) y s := by
  have follows := first.bind (g := Pure.pure) next
  rwa [bind_pure] at follows

theorem mapM {f : α → ExceptT ε (StateM σ) β} {g : α → Except ε γ} : ∀ {xs : List α} {s : σ},
    I s → (∀ a ∈ xs, ∀ s', I s' → Follows I (f a) (g a) s') →
      Follows I (xs.mapM f) (xs.mapM g) s
  | [], s, here, _ => by
      rw [List.mapM_nil, List.mapM_nil]
      exact pure here
  | a :: rest, s, here, steps => by
      rw [List.mapM_cons, List.mapM_cons]
      refine (steps a (List.mem_cons_self ..) s here).bind fun b c s₁ inv₁ _ => ?_
      refine (mapM inv₁ fun a' ha' => steps a' (List.mem_cons_of_mem _ ha')).bind
        fun bs cs s₂ inv₂ _ => pure inv₂

end Follows

/-! ## Steps that succeed -/

/-- From `s`, the step returns something with the property `Q`, and keeps the invariant. -/
def Succeeds (I : σ → Prop) (Q : α → Prop) (x : ExceptT ε (StateM σ) α) (s : σ) : Prop :=
  ∃ a s', x.run s = (.ok a, s') ∧ I s' ∧ Q a

namespace Succeeds

variable {Q : α → Prop} {R : β → Prop} {x : ExceptT ε (StateM σ) α}

theorem pure {a : α} (here : I s) (result : Q a) :
    Succeeds I Q (Pure.pure a : ExceptT ε (StateM σ) α) s :=
  ⟨a, s, rfl, here, result⟩

theorem liftExcept {e : Except ε α} {a : α} (here : I s) (eq : e = .ok a) (result : Q a) :
    Succeeds I Q (liftExcept e : ExceptT ε (StateM σ) α) s := by
  subst eq
  exact pure here result

/-- One step after the other. -/
theorem bind {f : α → ExceptT ε (StateM σ) β} (first : Succeeds I Q x s)
    (next : ∀ a s', I s' → Q a → Succeeds I R (f a) s') : Succeeds I R (x >>= f) s := by
  obtain ⟨a, s', run, keeps, result⟩ := first
  obtain ⟨b, t, run', keeps', result'⟩ := next a s' keeps result
  exact ⟨b, t, run_bind_eq_ok_iff.mpr ⟨a, s', run, run'⟩, keeps', result'⟩

/-- A step that only looks at the state. -/
theorem look {f : α → ExceptT ε (StateM σ) β} {a : α} (looks : x.run s = (.ok a, s))
    (next : Succeeds I R (f a) s) : Succeeds I R (x >>= f) s := by
  obtain ⟨b, t, run, keeps, result⟩ := next
  exact ⟨b, t, run_bind_eq_ok_iff.mpr ⟨a, s, looks, run⟩, keeps, result⟩

/-- A traversal succeeds where each of its steps does. -/
theorem mapM {T : β → γ → Prop} {f : α → ExceptT ε (StateM σ) β} :
    ∀ {xs : List α} (zs : List γ) {s : σ}, I s →
      List.Forall₂ (fun a c => ∀ s', I s' → Succeeds I (T · c) (f a) s') xs zs →
        Succeeds I (List.Forall₂ T · zs) (xs.mapM f) s
  | _, _, s, here, .nil => by
      rw [List.mapM_nil]
      exact pure here .nil
  | _, _, s, here, .cons step steps => by
      rw [List.mapM_cons]
      refine (step s here).bind fun b s₁ inv₁ hb => ?_
      refine (mapM _ inv₁ steps).bind fun bs s₂ inv₂ hbs => ?_
      exact pure inv₂ (.cons hb hbs)

end Succeeds

/-! ## Two runs -/

/-- From `s` and `t`, the steps fail alike or return related results, and leave related states.
Only the first one may also give up, and does so with an error of its own. -/
inductive Agrees {τ : Type} (J : σ → τ → Prop) (R : α → β → Prop) (GivesUp : ε → Prop)
    (x : ExceptT ε (StateM σ) α) (s : σ) (y : ExceptT ε (StateM τ) β) (t : τ) : Prop
  | alike : J (x.run s).2 (y.run t).2 → Alike R (x.run s).1 (y.run t).1 → Agrees J R GivesUp x s y t
  | gaveUp {e : ε} : (x.run s).1 = .error e → GivesUp e → Agrees J R GivesUp x s y t

namespace Agrees

variable {τ δ : Type} {J : σ → τ → Prop} {R : α → β → Prop} {S : γ → δ → Prop} {GivesUp : ε → Prop}
  {x : ExceptT ε (StateM σ) α} {y : ExceptT ε (StateM τ) β} {t : τ}

theorem pure {a : α} {b : β} (here : J s t) (related : R a b) :
    Agrees J R GivesUp (Pure.pure a) s (Pure.pure b) t :=
  .alike here (.ok related)

theorem throw {e : ε} (here : J s t) :
    Agrees J R GivesUp (MonadExcept.throw e) s (MonadExcept.throw e) t :=
  .alike here (.error e)

theorem liftExcept {e : Except ε α} (here : J s t) :
    Agrees J (· = ·) GivesUp (liftExcept e) s (liftExcept e) t := by
  cases e with
  | error e => exact throw here
  | ok a => exact pure here rfl

/-- One step after the other, on both sides. -/
theorem bind {f : α → ExceptT ε (StateM σ) γ} {g : β → ExceptT ε (StateM τ) δ}
    (first : Agrees J R GivesUp x s y t)
    (next : ∀ a b s' t', J s' t' → R a b → Agrees J S GivesUp (f a) s' (g b) t') :
    Agrees J S GivesUp (x >>= f) s (y >>= g) t := by
  have run := run_bind x f s
  have run' := run_bind y g t
  cases first with
  | gaveUp failed gives =>
      refine .gaveUp ?_ gives
      rw [run]
      rcases result : x.run s with ⟨outcome, s'⟩
      rw [result] at failed
      rw [show outcome = _ from failed]
  | alike keeps alike =>
      rcases result : x.run s with ⟨outcome, s'⟩
      rcases result' : y.run t with ⟨outcome', t'⟩
      rw [result] at run keeps alike
      rw [result'] at run' keeps alike
      cases alike with
      | error e => exact .alike (by rw [run, run']; exact keeps) (by rw [run, run']; exact .error e)
      | ok related =>
          cases next _ _ s' t' keeps related with
          | gaveUp failed gives => exact .gaveUp (by rw [run]; exact failed) gives
          | alike keeps alike =>
              exact .alike (by rw [run, run']; exact keeps) (by rw [run, run']; exact alike)

/-- Two traversals of one list. -/
theorem mapM {f : γ → ExceptT ε (StateM σ) α} {g : γ → ExceptT ε (StateM τ) β} :
    ∀ {xs : List γ} {s : σ} {t : τ}, J s t →
      (∀ c ∈ xs, ∀ s' t', J s' t' → Agrees J R GivesUp (f c) s' (g c) t') →
        Agrees J (List.Forall₂ R) GivesUp (xs.mapM f) s (xs.mapM g) t
  | [], _, _, here, _ => by
      rw [List.mapM_nil, List.mapM_nil]
      exact pure here .nil
  | c :: rest, s, t, here, steps => by
      rw [List.mapM_cons, List.mapM_cons]
      refine (steps c (List.mem_cons_self ..) s t here).bind fun a b s₁ t₁ here₁ related => ?_
      refine (mapM here₁ fun c' hc' => steps c' (List.mem_cons_of_mem _ hc')).bind
        fun as bs s₂ t₂ here₂ relations => ?_
      exact pure here₂ (.cons related relations)

end Agrees

end RecordFormat.Steps
