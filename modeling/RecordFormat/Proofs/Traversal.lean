import Mathlib.Data.List.Forall2
import RecordFormat.Outcome

/-!
# Traversals that may fail

A traversal of a list succeeds exactly when every step does, and its results stand in the
order of the inputs: `mapM_eq_ok_iff` turns it into a pointwise relation of two lists, which
is how every later proof reads it.
-/

namespace RecordFormat.Outcome

variable {α β γ ε : Type}

theorem ok_bind (a : α) (f : α → Except ε β) : (Except.ok a >>= f) = f a := rfl

theorem isOk_iff {x : Except ε α} : x.isOk = true ↔ ∃ a, x = .ok a := by
  cases x <;> simp [Except.isOk, Except.toBool]

/-- What stands on the right of a pointwise relation has a partner on the left. -/
theorem exists_left_of_mem {R : α → β → Prop} {y : β} : ∀ {xs : List α} {ys : List β},
    List.Forall₂ R xs ys → y ∈ ys → ∃ x ∈ xs, R x y
  | _, _, .cons here rest, mem => by
      rcases List.mem_cons.mp mem with rfl | mem
      · exact ⟨_, List.mem_cons_self .., here⟩
      · obtain ⟨x, hx, related⟩ := exists_left_of_mem rest mem
        exact ⟨x, List.mem_cons_of_mem _ hx, related⟩

/-- What stands on the left of a pointwise relation has a partner on the right. -/
theorem exists_right_of_mem {R : α → β → Prop} {xs : List α} {ys : List β} {x : α}
    (h : List.Forall₂ R xs ys) (mem : x ∈ xs) : ∃ y ∈ ys, R x y :=
  exists_left_of_mem h.flip mem

/-- A pointwise relation may be weakened at the members of both lists. -/
theorem forall₂_imp_of_mem {R S : α → β → Prop} : ∀ {xs : List α} {ys : List β},
    List.Forall₂ R xs ys → (∀ x ∈ xs, ∀ y ∈ ys, R x y → S x y) → List.Forall₂ S xs ys
  | _, _, .nil, _ => .nil
  | _, _, .cons here rest, h =>
      .cons (h _ (List.mem_cons_self ..) _ (List.mem_cons_self ..) here)
        (forall₂_imp_of_mem rest fun x hx y hy =>
          h x (List.mem_cons_of_mem _ hx) y (List.mem_cons_of_mem _ hy))

theorem map_eq_map_of_forall₂ {f : α → γ} {g : β → γ} : ∀ {xs : List α} {ys : List β},
    List.Forall₂ (fun x y => f x = g y) xs ys → xs.map f = ys.map g
  | _, _, .nil => rfl
  | _, _, .cons here rest => by
      rw [List.map_cons, List.map_cons, here, map_eq_map_of_forall₂ rest]

theorem exists_forall₂ {R : α → β → Prop} : ∀ {xs : List α}, (∀ x ∈ xs, ∃ y, R x y) →
    ∃ ys, List.Forall₂ R xs ys
  | [], _ => ⟨[], .nil⟩
  | x :: rest, h => by
      rcases List.forall_mem_cons.mp h with ⟨⟨y, related⟩, tail⟩
      obtain ⟨ys, pairs⟩ := exists_forall₂ tail
      exact ⟨y :: ys, .cons related pairs⟩

/-- What is related to two lists in a row is two lists in a row. -/
theorem exists_append_of_forall₂ {R : α → β → Prop} {xs xs' : List α} {zs : List β}
    (h : List.Forall₂ R (xs ++ xs') zs) :
    ∃ ys ys', zs = ys ++ ys' ∧ List.Forall₂ R xs ys ∧ List.Forall₂ R xs' ys' :=
  ⟨zs.take xs.length, zs.drop xs.length, (List.take_append_drop ..).symm,
    (List.forall₂_take_append _ _ _ h.flip).flip, (List.forall₂_drop_append _ _ _ h.flip).flip⟩

/-- Two lists that are related to a third one pointwise. -/
theorem forall₂_of_common {R : α → β → Prop} {S : α → γ → Prop} {T : β → γ → Prop}
    (h : ∀ x y z, R x y → S x z → T y z) : ∀ {xs : List α} {ys : List β} {zs : List γ},
    List.Forall₂ R xs ys → List.Forall₂ S xs zs → List.Forall₂ T ys zs
  | _, _, _, .nil, .nil => .nil
  | _, _, _, .cons hy ys, .cons hz zs => .cons (h _ _ _ hy hz) (forall₂_of_common h ys zs)

/-- What is determined by each pair of two related lists is determined by the lists. -/
theorem eq_of_forall₂ {δ : Type} {E : α → β → Prop} {R : α → δ → Prop} {S : β → δ → Prop}
    (determined : ∀ x y z z', E x y → R x z → S y z' → z = z') : ∀ {xs : List α} {ys : List β}
    {zs zs' : List δ}, List.Forall₂ E xs ys → List.Forall₂ R xs zs → List.Forall₂ S ys zs' →
      zs = zs'
  | _, _, _, _, .nil, .nil, .nil => rfl
  | _, _, _, _, .cons he es, .cons hr rs, .cons hs ss => by
      rw [determined _ _ _ _ he hr hs, eq_of_forall₂ determined es rs ss]

/-- Related lists are searched alike. -/
theorem rel_find? {R : α → β → Prop} {p : α → Bool} {q : β → Bool}
    (same : ∀ x y, R x y → p x = q y) : ∀ {xs : List α} {ys : List β}, List.Forall₂ R xs ys →
      Option.Rel R (xs.find? p) (ys.find? q)
  | _, _, .nil => .none
  | x :: _, y :: _, .cons here rest => by
      rw [List.find?_cons, List.find?_cons, ← same x y here]
      cases p x with
      | true => exact .some here
      | false => exact rel_find? same rest

/-- **A traversal is a pointwise relation.** -/
theorem mapM_eq_ok_iff {f : α → Except ε β} : ∀ {xs : List α} {ys : List β},
    xs.mapM f = .ok ys ↔ List.Forall₂ (fun x y => f x = .ok y) xs ys
  | [], ys => by
      rw [List.mapM_nil, pure_eq_ok_iff, List.forall₂_nil_left_iff, eq_comm]
  | x :: rest, ys => by
      rw [List.mapM_cons, bind_eq_ok_iff, List.forall₂_cons_left_iff]
      constructor
      · rintro ⟨y, hy, h⟩
        obtain ⟨zs, hzs, h⟩ := bind_eq_ok_iff.mp h
        exact ⟨y, zs, hy, mapM_eq_ok_iff.mp hzs, (pure_eq_ok_iff.mp h).symm⟩
      · rintro ⟨y, zs, hy, hzs, rfl⟩
        exact ⟨y, hy, bind_eq_ok_iff.mpr ⟨zs, mapM_eq_ok_iff.mpr hzs, rfl⟩⟩

/-- A traversal succeeds where every step does. -/
theorem exists_mapM {f : α → Except ε β} {R : α → β → Prop} {xs : List α}
    (h : ∀ x ∈ xs, ∃ y, f x = .ok y ∧ R x y) : ∃ ys, xs.mapM f = .ok ys ∧ List.Forall₂ R xs ys := by
  obtain ⟨ys, pairs⟩ := exists_forall₂ h
  exact ⟨ys, mapM_eq_ok_iff.mpr (pairs.imp fun _ _ h => h.1), pairs.imp fun _ _ h => h.2⟩

/-- Membership proofs carried along for termination do not change a traversal. -/
theorem mapM_attach (f : α → Except ε β) (xs : List α) :
    (xs.attach.mapM fun x => f x.1) = xs.mapM f := by
  rw [List.mapM_subtype (fun _ _ => rfl), List.unattach_attach]

/-- Traversals are equal where each step is. -/
theorem mapM_eq_mapM {f : α → Except ε γ} {g : β → Except ε γ} : ∀ {xs : List α} {ys : List β},
    List.Forall₂ (fun x y => f x = g y) xs ys → xs.mapM f = ys.mapM g
  | _, _, .nil => by rw [List.mapM_nil, List.mapM_nil]
  | _, _, .cons here rest => by
      rw [List.mapM_cons, List.mapM_cons, here, mapM_eq_mapM rest]

theorem forM_eq_ok_iff {f : α → Except ε Unit} {u : Unit} : ∀ {xs : List α},
    xs.forM f = .ok u ↔ ∀ x ∈ xs, f x = .ok ()
  | [] => by simp [List.forM, pure, Except.pure]
  | x :: rest => by
      rw [List.forM_eq_forM, List.forM_cons, bind_eq_ok_iff, List.forall_mem_cons]
      rw [← List.forM_eq_forM, forM_eq_ok_iff]
      constructor
      · rintro ⟨_, hx, h⟩
        exact ⟨hx, h⟩
      · rintro ⟨hx, h⟩
        exact ⟨(), hx, h⟩

/-! ## Reasons for failure -/

/-- Every failure of the outcome has the property `P`. -/
def Faults (P : ε → Prop) (x : Except ε α) : Prop := ∀ e, x = .error e → P e

namespace Faults

variable {P : ε → Prop}

theorem ok (a : α) : Faults P (.ok a) := fun _ failed => nomatch failed

theorem error {e : ε} (reason : P e) : Faults P (.error e : Except ε α) := by
  rintro _ ⟨⟩
  exact reason

/-- What has no reason to fail does not. -/
theorem exists_ok {x : Except ε α} (h : Faults P x) (never : ∀ e, ¬ P e) : ∃ a, x = .ok a := by
  cases x with
  | ok a => exact ⟨a, rfl⟩
  | error e => exact absurd (h e rfl) (never e)

theorem refuseIf {broken : Prop} [Decidable broken] {e : ε} (reason : broken → P e) :
    Faults P (refuseIf broken e) := by
  unfold Outcome.refuseIf
  by_cases h : broken
  · rw [if_pos h]
    exact error (reason h)
  · rw [if_neg h]
    exact ok ()

/-- What comes second fails only where the first outcome is a result. -/
theorem andThen {x : Except ε α} {f : α → Except ε β} (first : Faults P x)
    (next : ∀ a, x = .ok a → Faults P (f a)) : Faults P (x >>= f) := by
  cases x with
  | ok a => exact next a rfl
  | error e => exact error (first e rfl)

theorem bind {x : Except ε α} {f : α → Except ε β} (first : Faults P x)
    (next : ∀ a, Faults P (f a)) : Faults P (x >>= f) :=
  first.andThen fun a _ => next a

theorem foldlM {f : β → α → Except ε β} (step : ∀ b a, Faults P (f b a)) (b : β) (xs : List α) :
    Faults P (xs.foldlM f b) := by
  induction xs generalizing b with
  | nil => exact ok b
  | cons a rest ih =>
      rw [List.foldlM_cons]
      exact (step b a).bind ih

/-- A traversal fails at the first item that does. -/
theorem forM {f : α → Except ε Unit} : ∀ {xs : List α}, (∀ before x after,
    xs = before ++ x :: after → (∀ y ∈ before, f y = .ok ()) → Faults P (f x)) →
      Faults P (xs.forM f)
  | [], _ => ok ()
  | x :: rest, h => by
      rw [List.forM_eq_forM, List.forM_cons]
      refine andThen (h [] x rest rfl (by simp)) ?_
      intro _ passed
      rw [← List.forM_eq_forM]
      apply forM
      intro before y after split earlier
      refine h (x :: before) y after (by rw [split]; rfl) ?_
      intro z hz
      rcases List.mem_cons.mp hz with rfl | hz
      · exact passed
      · exact earlier z hz

end Faults

/-! ## Renamed failures -/

theorem mapError_bind {δ : Type} (x : Except ε α) (f : α → Except ε β) (g : ε → δ) :
    (x >>= f).mapError g = x.mapError g >>= fun a => (f a).mapError g := by
  cases x <;> rfl

theorem mapError_refuseIf {δ : Type} (broken : Prop) [Decidable broken] (e : ε) (g : ε → δ) :
    (refuseIf broken e).mapError g = refuseIf broken (g e) := by
  unfold refuseIf
  split <;> rfl

theorem mapError_mapM {δ : Type} (f : α → Except ε β) (g : ε → δ) : ∀ xs : List α,
    (xs.mapM f).mapError g = xs.mapM fun x => (f x).mapError g
  | [] => by
      rw [List.mapM_nil, List.mapM_nil]
      rfl
  | x :: rest => by
      simp only [List.mapM_cons, mapError_bind, mapError_mapM f g rest]
      rfl

theorem toOption_mapError {δ : Type} (x : Except ε α) (g : ε → δ) :
    (x.mapError g).toOption = x.toOption := by
  cases x <;> rfl

theorem toOption_eq_some_iff {x : Except ε α} {a : α} : x.toOption = some a ↔ x = .ok a := by
  cases x <;> simp [Except.toOption]

/-! ## Related outcomes -/

/-- The same failure, or related results. -/
inductive Alike (R : α → β → Prop) : Except ε α → Except ε β → Prop
  | ok {a : α} {b : β} : R a b → Alike R (.ok a) (.ok b)
  | error (e : ε) : Alike R (.error e) (.error e)

theorem Alike.eq {x y : Except ε α} (h : Alike (· = ·) x y) : x = y := by
  cases h with
  | ok same => rw [same]
  | error e => rfl

theorem Alike.refl {R : α → α → Prop} (h : ∀ a, R a a) (x : Except ε α) : Alike R x x := by
  cases x with
  | ok a => exact .ok (h a)
  | error e => exact .error e

theorem Alike.ok_left {R : α → β → Prop} {a : α} {y : Except ε β} (h : Alike R (.ok a) y) :
    ∃ b, y = .ok b ∧ R a b := by
  cases h with
  | ok related => exact ⟨_, rfl, related⟩

theorem Alike.ok_right {R : α → β → Prop} {x : Except ε α} {b : β} (h : Alike R x (.ok b)) :
    ∃ a, x = .ok a ∧ R a b := by
  cases h with
  | ok related => exact ⟨_, rfl, related⟩

theorem Alike.imp {R S : α → β → Prop} {x : Except ε α} {y : Except ε β} (h : Alike R x y)
    (imp : ∀ a b, x = .ok a → y = .ok b → R a b → S a b) : Alike S x y := by
  cases h with
  | ok related => exact .ok (imp _ _ rfl rfl related)
  | error e => exact .error e

/-- Two outcomes that are related to a third one. -/
theorem Alike.of_common {R : α → γ → Prop} {S : β → γ → Prop} {T : α → β → Prop}
    {x : Except ε α} {y : Except ε β} {z : Except ε γ} (hx : Alike R x z) (hy : Alike S y z)
    (h : ∀ a b c, R a c → S b c → T a b) : Alike T x y := by
  cases hx with
  | ok related =>
      cases hy with
      | ok related' => exact .ok (h _ _ _ related related')
  | error e =>
      cases hy
      exact .error e

/-- What two related results have in common. -/
theorem Alike.map_eq {f : α → γ} {g : β → γ} {x : Except ε α} {y : Except ε β}
    (h : Alike (fun a b => f a = g b) x y) : x.map f = y.map g := by
  cases h with
  | ok same => exact congrArg Except.ok same
  | error e => rfl

/-- An outcome that is the image of another one. -/
theorem Alike.map_eq_right {f : α → β} {x : Except ε α} {y : Except ε β}
    (h : Alike (fun a b => f a = b) x y) : x.map f = y := by
  cases h with
  | ok same => exact congrArg Except.ok same
  | error e => rfl

theorem Alike.mapError {δ : Type} {R : α → β → Prop} {x : Except ε α} {y : Except ε β}
    (h : Alike R x y) (f : ε → δ) : Alike R (x.mapError f) (y.mapError f) := by
  cases h with
  | ok related => exact .ok related
  | error e => exact .error (f e)

theorem Alike.bind {δ : Type} {R : α → β → Prop} {S : γ → δ → Prop} {x : Except ε α}
    {y : Except ε β} {f : α → Except ε γ} {g : β → Except ε δ} (h : Alike R x y)
    (rest : ∀ a b, R a b → Alike S (f a) (g b)) : Alike S (x >>= f) (y >>= g) := by
  cases h with
  | ok related => exact rest _ _ related
  | error e => exact .error e

/-- Outcomes that are alike fail for the same reasons. -/
theorem Faults.of_alike {R : α → β → Prop} {P : ε → Prop} {x : Except ε α} {y : Except ε β}
    (h : Alike R x y) (reasons : Faults P y) : Faults P x := by
  cases h with
  | ok related => exact .ok _
  | error e => exact .error (reasons e rfl)

/-- Sequences that begin the same. -/
theorem Alike.bind_left {δ : Type} {S : γ → δ → Prop} (x : Except ε α) {f : α → Except ε γ}
    {g : α → Except ε δ} (rest : ∀ a, Alike S (f a) (g a)) : Alike S (x >>= f) (x >>= g) := by
  cases x with
  | ok a => exact rest a
  | error e => exact .error e

/-- Traversals fail alike where each step does, and what they return is related pointwise. -/
theorem Alike.mapM {δ : Type} {R : γ → δ → Prop} {f : α → Except ε γ} {g : β → Except ε δ} :
    ∀ {xs : List α} {ys : List β}, List.Forall₂ (fun x y => Alike R (f x) (g y)) xs ys →
      Alike (List.Forall₂ R) (xs.mapM f) (ys.mapM g)
  | _, _, .nil => by
      rw [List.mapM_nil, List.mapM_nil]
      exact .ok .nil
  | _, _, .cons here rest => by
      rw [List.mapM_cons, List.mapM_cons]
      exact here.bind fun a b related =>
        (Alike.mapM rest).bind fun as bs relations => .ok (.cons related relations)

end RecordFormat.Outcome
