import Mathlib
import RecordFormat.Floating.Format

/-!
# Widening loses nothing

A finite single is the nearest single of the double that it widens to (`Binary32.narrow_widen`). A
number is a significand that leads an exponent, in both formats; rounding looks for that exponent,
and finds it again when nothing has to be cut off.
-/

namespace RecordFormat

namespace Format

variable {f : Format}

theorem infinity_eq (f : Format) : f.infinity = (2 ^ f.exponent - 1) * 2 ^ f.fraction := by
  rw [infinity, Nat.shiftLeft_eq, Nat.one_shiftLeft]

theorem infinity_lt (f : Format) : f.infinity < 2 ^ (f.fraction + f.exponent) := by
  have positive : 0 < 2 ^ f.exponent := Nat.two_pow_pos _
  rw [infinity_eq, Nat.add_comm, Nat.pow_add]
  exact Nat.mul_lt_mul_of_pos_right (by omega) (Nat.two_pow_pos _)

theorem magnitude_of_lt {bits : Nat} (small : bits < 2 ^ (f.fraction + f.exponent)) :
    f.magnitude bits = bits := by
  rw [magnitude, Nat.one_shiftLeft, Nat.mod_eq_of_lt small]

/-- The significand `m` is that of a finite number with exponent `k`: it has a leading one, unless
the number is subnormal. -/
structure Leads (f : Format) (m k : Nat) : Prop where
  small : m < 2 ^ (f.fraction + 1)
  leading : k = 0 ∨ 2 ^ f.fraction ≤ m

/-- Every magnitude is an exponent and a significand. -/
theorem leads_significand (bits : Nat) :
    f.Leads (f.significand bits).1 (f.significand bits).2 ∧
      (f.significand bits).2 * 2 ^ f.fraction + (f.significand bits).1 = f.magnitude bits := by
  have whole := Nat.div_add_mod (f.magnitude bits) (2 ^ f.fraction)
  have stored : f.magnitude bits % 2 ^ f.fraction < 2 ^ f.fraction :=
    Nat.mod_lt _ (Nat.two_pow_pos _)
  simp only [significand, Nat.shiftRight_eq_div_pow, Nat.one_shiftLeft]
  generalize f.magnitude bits % 2 ^ f.fraction = rest at *
  split
  · next subnormal =>
    rw [subnormal] at whole
    exact ⟨⟨by rw [Nat.pow_succ]; dsimp only; omega, .inl rfl⟩, by dsimp only; omega⟩
  · next normal =>
    obtain ⟨e, he⟩ := Nat.exists_eq_succ_of_ne_zero normal
    rw [he] at whole ⊢
    refine ⟨⟨by rw [Nat.pow_succ]; dsimp only; omega, .inr (Nat.le_add_left ..)⟩, ?_⟩
    calc e * 2 ^ f.fraction + (rest + 2 ^ f.fraction)
      _ = 2 ^ f.fraction * (e + 1) + rest := by ring
      _ = f.magnitude bits := whole

/-- The value of an exponent and a significand. -/
theorem units_of_leads {m k : Nat} (h : f.Leads m k) {bits : Nat}
    (eq : f.magnitude bits = k * 2 ^ f.fraction + m) : f.units bits = m * 2 ^ k := by
  obtain ⟨small, leading⟩ := h
  rw [Nat.pow_succ] at small
  simp only [units, significand, Nat.shiftRight_eq_div_pow, Nat.shiftLeft_eq, Nat.one_mul, eq]
  by_cases subnormal : m < 2 ^ f.fraction
  · obtain rfl : k = 0 := by omega
    rw [Nat.zero_mul, Nat.zero_add, Nat.div_eq_of_lt subnormal, if_pos rfl,
      Nat.mod_eq_of_lt subnormal]
  · obtain ⟨r, rfl⟩ := Nat.exists_eq_add_of_le (Nat.le_of_not_lt subnormal)
    have split : k * 2 ^ f.fraction + (2 ^ f.fraction + r) = 2 ^ f.fraction * (k + 1) + r := by ring
    have rest : r < 2 ^ f.fraction := by omega
    rw [split, Nat.mul_add_div (Nat.two_pow_pos _), Nat.div_eq_of_lt rest, Nat.add_zero,
      if_neg (Nat.succ_ne_zero k), Nat.mul_add_mod, Nat.mod_eq_of_lt rest, Nat.add_sub_cancel,
      Nat.add_comm r]

/-- The power of two that a number of smallest subnormals is rounded to a multiple of. -/
def step (f : Format) (n : Nat) : Nat := Nat.log2 n - f.fraction

theorem step_of_leads {m k : Nat} (h : f.Leads m k) : f.step (m * 2 ^ k) = k := by
  obtain ⟨small, leading⟩ := h
  rcases Nat.eq_zero_or_pos k with rfl | positive
  · by_cases zero : m = 0
    · simp [step, zero]
    · have := (Nat.log2_lt zero).mpr small
      rw [Nat.pow_zero, Nat.mul_one, step]
      omega
  · have leading := leading.resolve_left positive.ne'
    have pos : 0 < m := (Nat.two_pow_pos _).trans_le leading
    have log : Nat.log2 (m * 2 ^ k) = f.fraction + k := by
      rw [Nat.log2_eq_iff (Nat.mul_pos pos (Nat.two_pow_pos k)).ne', Nat.add_right_comm,
        Nat.pow_add, Nat.pow_add]
      exact ⟨Nat.mul_le_mul_right _ leading, Nat.mul_lt_mul_of_pos_right small (Nat.two_pow_pos k)⟩
    rw [step, log, Nat.add_sub_cancel_left]

/-- A number is a significand and an exponent, rounded down. -/
theorem leads_step (n : Nat) : f.Leads (n / 2 ^ f.step n) (f.step n) := by
  by_cases zero : n = 0
  · subst zero
    exact ⟨by simp, .inl (by simp [step])⟩
  · have above : n < 2 ^ (Nat.log2 n + 1) := (Nat.log2_lt zero).mp (Nat.lt_succ_self _)
    have below : 2 ^ Nat.log2 n ≤ n := (Nat.le_log2 zero).mp (Nat.le_refl _)
    constructor
    · apply Nat.div_lt_of_lt_mul
      apply above.trans_le
      rw [← Nat.pow_add]
      exact Nat.pow_le_pow_right (by decide) (by unfold step; omega)
    · by_cases h : f.step n = 0
      · exact .inl h
      · right
        rw [Nat.le_div_iff_mul_le (Nat.two_pow_pos _), ← Nat.pow_add]
        exact (Nat.pow_le_pow_right (by decide) (by unfold step at *; omega)).trans below

theorem step_le_of_lt {n j : Nat} (small : n < 2 ^ (f.fraction + 1 + j)) : f.step n ≤ j := by
  by_cases zero : n = 0
  · simp [step, zero]
  · have := (Nat.log2_lt zero).mpr small
    unfold step
    omega

theorem round_le (num den : Nat) : f.round num den ≤ f.infinity := Nat.min_le_right ..

/-- A significand that fits is not rounded. -/
theorem round_of_leads {m k den : Nat} (h : f.Leads m k) (positive : 0 < den) :
    f.round (m * 2 ^ k * den) den = min (k * 2 ^ f.fraction + m) f.infinity := by
  have log : Nat.log2 (m * 2 ^ k) - f.fraction = k := step_of_leads h
  have low : m * 2 ^ k * den / (den * 2 ^ k) = m := by
    rw [Nat.mul_right_comm, Nat.mul_assoc, Nat.mul_div_cancel _ (by positivity)]
  have rest : m * 2 ^ k * den % (den * 2 ^ k) = 0 := by
    rw [Nat.mul_assoc, Nat.mul_comm den, Nat.mul_mod_left]
  simp [round, Nat.shiftLeft_eq, Nat.mul_div_cancel _ positive, log, low, rest, positive.ne']

/-- Rounding gives a finite number back. -/
theorem round_units {bits den : Nat} (finite : f.magnitude bits < f.infinity) (positive : 0 < den) :
    f.round (f.units bits * den) den = f.magnitude bits := by
  obtain ⟨leads, eq⟩ := leads_significand (f := f) bits
  rw [units_of_leads leads eq.symm, round_of_leads leads positive, eq, Nat.min_eq_left finite.le]

/-- What is a multiple of the step it is rounded to is not rounded. -/
theorem units_round {n bits : Nat} (exact : 2 ^ f.step n ∣ n)
    (small : (f.step n + 2) * 2 ^ f.fraction ≤ f.infinity)
    (eq : f.magnitude bits = f.round n 1) : f.units bits = n ∧ f.magnitude bits < f.infinity := by
  have leads := leads_step (f := f) n
  have whole : n / 2 ^ f.step n * 2 ^ f.step n = n := Nat.div_mul_cancel exact
  have rounded := round_of_leads leads Nat.one_pos
  have finite : f.step n * 2 ^ f.fraction + n / 2 ^ f.step n < f.infinity := by
    have := leads.small
    rw [Nat.pow_succ] at this
    rw [Nat.add_mul] at small
    omega
  rw [whole, Nat.mul_one, Nat.min_eq_left finite.le] at rounded
  rw [eq, rounded]
  exact ⟨(units_of_leads leads (eq.trans rounded)).trans whole, finite⟩

/-- A format with room for the significand and the exponent holds every finite number of another
one, here counted in units that are `2 ^ j` times as small. -/
theorem units_round_units {f g : Format} {bits bits' j : Nat} (wider : f.fraction ≤ g.fraction)
    (room : 2 ^ f.exponent + j < 2 ^ g.exponent) (finite : f.magnitude bits < f.infinity)
    (eq : g.magnitude bits' = g.round (f.units bits * 2 ^ j) 1) :
    g.units bits' = f.units bits * 2 ^ j ∧ g.magnitude bits' < g.infinity := by
  obtain ⟨leads, whole⟩ := leads_significand (f := f) bits
  rw [units_of_leads leads whole.symm, Nat.mul_assoc, ← Nat.pow_add] at eq ⊢
  generalize (f.significand bits).1 = m at *
  generalize (f.significand bits).2 = k at *
  have exponent : k < 2 ^ f.exponent - 1 := by
    rw [infinity_eq] at finite
    exact Nat.lt_of_mul_lt_mul_right (Nat.lt_of_le_of_lt (Nat.le.intro whole) finite)
  -- The wider significand holds the narrower one, so nothing is lost.
  have step : g.step (m * 2 ^ (k + j)) ≤ k + j := by
    apply step_le_of_lt
    rw [Nat.pow_add _ (g.fraction + 1)]
    apply Nat.mul_lt_mul_of_pos_right _ (Nat.two_pow_pos _)
    exact leads.small.trans_le (Nat.pow_le_pow_right (by decide) (by omega))
  apply units_round ((Nat.pow_dvd_pow 2 step).mul_left m) _ eq
  rw [infinity_eq]
  exact Nat.mul_le_mul_right _ (by omega)

theorem magnitude_withSign {negative : Bool} {m : Nat} (small : m < 2 ^ (f.fraction + f.exponent)) :
    f.magnitude (f.withSign negative m) = m := by
  cases negative with
  | false => exact magnitude_of_lt small
  | true =>
      rw [withSign, if_pos rfl, signBit, magnitude, Nat.one_shiftLeft, Nat.add_mod_left,
        Nat.mod_eq_of_lt small]

theorem negative_withSign {negative : Bool} {m : Nat} (small : m < 2 ^ (f.fraction + f.exponent)) :
    f.negative (f.withSign negative m) = negative := by
  cases negative with
  | false =>
      rw [withSign, if_neg (by simp), Format.negative, Nat.shiftRight_eq_div_pow,
        Nat.div_eq_of_lt small]
      rfl
  | true =>
      rw [withSign, if_pos rfl, signBit, Format.negative, Nat.shiftRight_eq_div_pow,
        Nat.one_shiftLeft, Nat.add_div_left _ (Nat.two_pow_pos _), Nat.div_eq_of_lt small]
      rfl

/-- A number is its sign and its magnitude. -/
theorem withSign_magnitude {bits : Nat} (small : bits < 2 ^ (f.fraction + f.exponent + 1)) :
    f.withSign (f.negative bits) (f.magnitude bits) = bits := by
  have parts := Nat.div_add_mod bits (2 ^ (f.fraction + f.exponent))
  have sign : bits / 2 ^ (f.fraction + f.exponent) < 2 := by
    rw [Nat.div_lt_iff_lt_mul (Nat.two_pow_pos _), Nat.mul_comm, ← Nat.pow_succ]
    exact small
  simp only [withSign, negative, magnitude, signBit, Nat.one_shiftLeft, Nat.shiftRight_eq_div_pow]
  rcases Nat.lt_succ_iff_lt_or_eq.mp sign with sign | sign
  · rw [Nat.lt_one_iff.mp sign] at parts ⊢
    simpa using parts
  · rw [sign] at parts ⊢
    simpa using parts

end Format

theorem Binary64.toNat_ofMagnitude {negative : Bool} {m : Nat} (small : m < 2 ^ 63) :
    (Binary64.ofMagnitude negative m).bits.toNat = Format.double.withSign negative m := by
  have bound : Format.double.withSign negative m < 2 ^ 64 := by
    cases negative with
    | false => exact small.trans (by decide)
    | true => exact Nat.add_lt_add_left small (2 ^ 63)
  exact UInt64.toNat_ofNat_of_lt' bound

namespace Binary32

/-- The single precision numbers that are finite. -/
def isFinite (x : Binary32) : Bool := Format.single.isFinite x.bits.toNat

variable {x : Binary32}

/-- What is widened keeps its sign, and is finite only if it was. -/
theorem exists_widen (x : Binary32) : ∃ m, m < 2 ^ 63 ∧
    x.widen = .ofMagnitude (Format.single.negative x.bits.toNat) m ∧
    (x.isFinite = true → m = Format.double.round (Format.single.units x.bits.toNat *
      2 ^ (Format.double.scale - Format.single.scale)) 1) ∧
    (m < Format.double.infinity → x.isFinite = true) := by
  by_cases finite : Format.single.magnitude x.bits.toNat < Format.single.infinity
  · refine ⟨_, (Format.round_le ..).trans_lt (Format.infinity_lt .double),
      congrArg (Binary64.ofMagnitude _) (if_pos finite), fun _ => ?_, fun _ => decide_eq_true finite⟩
    rw [Nat.shiftLeft_eq]
  · have infinite : ¬x.isFinite = true := fun h => finite (of_decide_eq_true h)
    by_cases number : Format.single.magnitude x.bits.toNat = Format.single.infinity
    · exact ⟨_, Format.infinity_lt .double, congrArg (Binary64.ofMagnitude _)
        ((if_neg finite).trans (if_pos number)), (absurd · infinite),
        fun below => absurd below (Nat.lt_irrefl _)⟩
    · refine ⟨_, ?_, congrArg (Binary64.ofMagnitude _) ((if_neg finite).trans (if_neg number)),
        (absurd · infinite), fun below => absurd below (Nat.not_lt.mpr (Nat.le_add_right ..))⟩
      have whole : Format.double.infinity + 2 ^ 52 = 2 ^ 63 := by decide
      rw [← whole]
      apply Nat.add_lt_add_left
      -- The payload of what is not a number has 23 bits.
      have magnitude : Format.single.magnitude x.bits.toNat < Format.single.infinity + 2 ^ 23 :=
        Nat.mod_lt _ (by decide)
      have payload := Nat.shiftLeft_lt (m := 29) (Nat.sub_lt_left_of_lt_add (by omega) magnitude)
      exact Nat.or_lt_two_pow payload (by decide)

theorem isFinite_of_widen (finite : x.widen.isFinite = true) : x.isFinite = true := by
  obtain ⟨m, bound, widened, -, finite_of⟩ := exists_widen x
  rw [widened] at finite
  have below : Format.double.magnitude (Binary64.ofMagnitude _ m).bits.toNat < _ :=
    of_decide_eq_true finite
  rw [Binary64.toNat_ofMagnitude bound, Format.magnitude_withSign bound] at below
  exact finite_of below

/-- **A finite number that is widened is narrowed to itself.** -/
theorem narrow_widen (finite : x.isFinite = true) : x.widen.narrow = x := by
  obtain ⟨m, bound, widened, value, -⟩ := exists_widen x
  have value := value finite
  have finite : Format.single.magnitude x.bits.toNat < Format.single.infinity :=
    of_decide_eq_true finite
  have bits : x.widen.bits.toNat =
      Format.double.withSign (Format.single.negative x.bits.toNat) m := by
    rw [widened, Binary64.toNat_ofMagnitude bound]
  have magnitude : Format.double.magnitude x.widen.bits.toNat = m := by
    rw [bits, Format.magnitude_withSign bound]
  have sign : Format.double.negative x.widen.bits.toNat = Format.single.negative x.bits.toNat := by
    rw [bits, Format.negative_withSign bound]
  obtain ⟨units, below⟩ := Format.units_round_units (f := .single) (g := .double) (by decide)
    (by decide) finite (magnitude.trans value)
  have narrowed : Format.single.round (Format.double.units x.widen.bits.toNat)
      (1 <<< (Format.double.scale - Format.single.scale)) =
        Format.single.magnitude x.bits.toNat := by
    rw [units, Nat.one_shiftLeft]
    exact Format.round_units finite (Nat.two_pow_pos _)
  have same : x.widen.narrow = ⟨.ofNat (Format.single.withSign
      (Format.double.negative x.widen.bits.toNat) (Format.single.magnitude x.bits.toNat))⟩ := by
    rw [← narrowed]
    exact congrArg (fun m => Binary32.mk (.ofNat (Format.single.withSign _ m))) (if_pos below)
  rw [same, sign, Format.withSign_magnitude x.bits.toNat_lt, UInt32.ofNat_toNat]

end Binary32

end RecordFormat
