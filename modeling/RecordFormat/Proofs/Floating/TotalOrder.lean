import Mathlib
import RecordFormat.Proofs.Floating.Widening

/-!
# The total order of floating point numbers

Negative numbers come before positive ones, the zeros included. Beside each other stand magnitudes:
finite ones by their value, then infinity, then what is not a number, by its payload, quiet after
signaling; among negative numbers all the other way round. Comparing bit patterns by
`Format.rank` is this order (`Format.precedes_iff`), in which only equal bits are equal.
-/

namespace RecordFormat

namespace Format

variable {f : Format} {a b c : Nat}

/-- The magnitude of `a` is the smaller one: it is finite and `b` is larger or not finite, or both
are not finite and it has the smaller bits, where infinity comes first. -/
def Below (f : Format) (a b : Nat) : Prop :=
  (f.isFinite a = true ∧ (f.isFinite b = true → f.units a < f.units b)) ∨
    (f.isFinite a = false ∧ f.isFinite b = false ∧ f.magnitude a < f.magnitude b)

/-- The total order of the bit patterns of a format. -/
def Precedes (f : Format) (a b : Nat) : Prop :=
  match f.negative a, f.negative b with
  | true, false => True
  | false, true => False
  | false, false => f.Below a b
  | true, true => f.Below b a

/-- Larger significands and exponents make larger numbers. -/
theorem Leads.lt {m k m' k' : Nat} (h : f.Leads m k) (h' : f.Leads m' k')
    (less : k * 2 ^ f.fraction + m < k' * 2 ^ f.fraction + m') : m * 2 ^ k < m' * 2 ^ k' := by
  have small := h.small
  have small' := h'.small
  rw [Nat.pow_succ] at small small'
  rcases Nat.lt_trichotomy k k' with lower | rfl | higher
  · have leading' : 2 ^ f.fraction ≤ m' := h'.leading.resolve_left (Nat.ne_zero_of_lt lower)
    calc m * 2 ^ k
      _ < 2 ^ f.fraction * 2 * 2 ^ k := Nat.mul_lt_mul_of_pos_right small (Nat.two_pow_pos k)
      _ = 2 ^ f.fraction * 2 ^ (k + 1) := by rw [Nat.pow_succ, Nat.mul_assoc, Nat.mul_comm 2]
      _ ≤ m' * 2 ^ k' := Nat.mul_le_mul leading' (Nat.pow_le_pow_right (by decide) lower)
  · exact Nat.mul_lt_mul_of_pos_right (Nat.lt_of_add_lt_add_left less) (Nat.two_pow_pos k)
  · -- A larger exponent is worth at least a leading one more.
    have leading : 2 ^ f.fraction ≤ m := h.leading.resolve_left (Nat.ne_zero_of_lt higher)
    have more : (k' + 1) * 2 ^ f.fraction ≤ k * 2 ^ f.fraction := Nat.mul_le_mul_right _ higher
    rw [Nat.add_mul] at more
    omega

theorem units_lt_units (less : f.magnitude a < f.magnitude b) : f.units a < f.units b := by
  obtain ⟨leads, eq⟩ := leads_significand (f := f) a
  obtain ⟨leads', eq'⟩ := leads_significand (f := f) b
  rw [units_of_leads leads eq.symm, units_of_leads leads' eq'.symm]
  exact leads.lt leads' (by rwa [eq, eq'])

theorem units_congr (same : f.magnitude a = f.magnitude b) : f.units a = f.units b := by
  rw [units, units, significand, significand, same]

/-- Magnitudes are ordered as their bits are. -/
theorem below_iff : f.Below a b ↔ f.magnitude a < f.magnitude b := by
  have values : f.units a < f.units b ↔ f.magnitude a < f.magnitude b := by
    refine ⟨fun less => ?_, units_lt_units⟩
    rcases Nat.lt_trichotomy (f.magnitude a) (f.magnitude b) with below | same | above
    · exact below
    · exact absurd (units_congr same) (Nat.ne_of_lt less)
    · exact absurd (units_lt_units above) (Nat.lt_asymm less)
  simp only [Below, isFinite, decide_eq_true_eq, decide_eq_false_iff_not, values]
  omega

/-- The total order is that of ranks. -/
theorem precedes_iff : f.Precedes a b ↔ f.rank a < f.rank b := by
  unfold Precedes rank
  cases f.negative a with
  | false =>
      cases f.negative b with
      | false => simp [below_iff]
      | true =>
          simp only [Bool.false_eq_true, if_false, if_true, false_iff]
          omega
  | true =>
      cases f.negative b with
      | false =>
          simp only [Bool.false_eq_true, if_false, if_true, true_iff]
          omega
      | true => simp [below_iff]

/-- A pattern is its sign and its magnitude. -/
theorem eq_withSign (width : a < 2 ^ (f.fraction + f.exponent + 1)) :
    a = f.withSign (f.negative a) (f.magnitude a) := by
  have sign : a / 2 ^ (f.fraction + f.exponent) < 2 := by
    apply Nat.div_lt_of_lt_mul
    rwa [← Nat.pow_succ]
  have parts := Nat.div_add_mod a (2 ^ (f.fraction + f.exponent))
  unfold withSign signBit negative magnitude
  rw [Nat.shiftRight_eq_div_pow, Nat.one_shiftLeft]
  interval_cases a / 2 ^ (f.fraction + f.exponent)
  · simpa using parts.symm
  · simpa using parts.symm

/-- Patterns of one rank are the same. -/
theorem eq_of_rank (ha : a < 2 ^ (f.fraction + f.exponent + 1))
    (hb : b < 2 ^ (f.fraction + f.exponent + 1)) (same : f.rank a = f.rank b) : a = b := by
  have parts : f.negative a = f.negative b ∧ f.magnitude a = f.magnitude b := by
    unfold rank at same
    generalize f.negative a = s, f.negative b = s', f.magnitude a = m, f.magnitude b = m' at *
    cases s <;> cases s' <;> simp at same ⊢ <;> omega
  rw [eq_withSign ha, eq_withSign hb, parts.1, parts.2]

end Format

/-- Single precision numbers of one rank are the same. -/
theorem Binary32.eq_of_rank {x y : Binary32}
    (same : Format.single.rank x.bits.toNat = Format.single.rank y.bits.toNat) : x = y := by
  have bits := Format.eq_of_rank (f := Format.single) x.bits.toNat_lt y.bits.toNat_lt same
  cases x
  cases y
  exact congrArg _ (UInt32.toNat_inj.mp bits)

/-- Double precision numbers of one rank are the same. -/
theorem Binary64.eq_of_rank {x y : Binary64}
    (same : Format.double.rank x.bits.toNat = Format.double.rank y.bits.toNat) : x = y := by
  have bits := Format.eq_of_rank (f := Format.double) x.bits.toNat_lt y.bits.toNat_lt same
  cases x
  cases y
  exact congrArg _ (UInt64.toNat_inj.mp bits)

end RecordFormat
