/-!
# Sequences of steps that may fail

A sequence succeeds exactly when every step does; what a traversal returns comes from its
inputs.
-/

namespace RecordFormat.Outcome

variable {α β ε : Type}

/-- Fails with `e` where `broken` holds. -/
def refuseIf (broken : Prop) [Decidable broken] (e : ε) : Except ε Unit :=
  if broken then .error e else .ok ()

theorem refuseIf_eq_ok_iff {broken : Prop} [Decidable broken] {e : ε} {u : Unit} :
    refuseIf broken e = .ok u ↔ ¬broken := by
  unfold refuseIf
  split <;> simp [*]

theorem bind_eq_ok_iff {x : Except ε α} {f : α → Except ε β} {b : β} :
    (x >>= f) = .ok b ↔ ∃ a, x = .ok a ∧ f a = .ok b := by
  cases x <;> simp [bind, Except.bind]

theorem map_eq_ok_iff {x : Except ε α} {f : α → β} {b : β} :
    (f <$> x) = .ok b ↔ ∃ a, x = .ok a ∧ f a = b := by
  cases x <;> simp [Functor.map, Except.map]

theorem pure_eq_ok_iff {a b : α} : (pure a : Except ε α) = .ok b ↔ a = b := by
  simp [pure, Except.pure]

theorem throw_ne_ok {e : ε} {b : α} : (throw e : Except ε α) ≠ .ok b := by
  simp [throw, throwThe, MonadExceptOf.throw]

theorem mapError_eq_ok_iff {δ : Type} {x : Except ε α} {f : ε → δ} {a : α} :
    x.mapError f = .ok a ↔ x = .ok a := by
  cases x with
  | error e => exact ⟨nofun, nofun⟩
  | ok b => exact ⟨fun h => congrArg _ (Except.ok.inj h), fun h => congrArg _ (Except.ok.inj h)⟩

/-- Every item that a successful traversal returns comes from one of its inputs. -/
theorem exists_of_mem_mapM {f : α → Except ε β} {xs : List α} {ys : List β}
    (h : xs.mapM f = .ok ys) {y : β} (mem : y ∈ ys) : ∃ x ∈ xs, f x = .ok y := by
  induction xs generalizing ys with
  | nil =>
    rw [List.mapM_nil, pure_eq_ok_iff] at h
    subst h
    cases mem
  | cons x rest ih =>
    rw [List.mapM_cons, bind_eq_ok_iff] at h
    obtain ⟨z, hx, h⟩ := h
    obtain ⟨zs, hr, h⟩ := bind_eq_ok_iff.1 h
    rw [pure_eq_ok_iff] at h
    subst h
    rcases List.mem_cons.1 mem with rfl | mem
    · exact ⟨x, List.mem_cons_self .., hx⟩
    · obtain ⟨w, hw, eq⟩ := ih hr mem
      exact ⟨w, List.mem_cons_of_mem _ hw, eq⟩

end RecordFormat.Outcome
