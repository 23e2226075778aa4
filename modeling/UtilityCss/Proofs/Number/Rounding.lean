import UtilityCss.Number
import Mathlib.Algebra.Order.Field.Basic
import Mathlib.Algebra.Order.Field.Rat
import Mathlib.Data.Nat.Dist
import Mathlib.Order.Monotone.Basic
import Mathlib.Tactic.Linarith
import Mathlib.Tactic.Ring

/-!
# Rounding to the nearest number

The number that `Binary64.nearest` gives for a rational is nearer to it than any other, or as near
and even (`Binary64.isNearest_nearest`). There is only one such number
(`Binary64.IsNearest.unique`), so that a rational has one rounding, however it is given.

* `Binary64.IsNearest` says what the nearest number is. Infinity stands for the number that would
  follow the largest finite one, which is `2 ^ 1024` (`Binary64.toRat_infinity`).
* `Binary64.steps` counts the value of a number in the least positive one.

Values are compared as natural numbers: the distance of a number from `n / d` is that of its steps
times `d` from `n` times the number of steps in one.
-/

set_option autoImplicit false

namespace UtilityCss.Binary64

/-! ## Steps -/

/-- The value of a number in units of the least positive number. -/
def steps (x : Binary64) : Nat :=
  x.significand * 2 ^ x.exponent

theorem fractions_pos : 0 < fractions := Nat.two_pow_pos 52

theorem unit_pos : 0 < unit := by decide +kernel

theorem toRat_eq (x : Binary64) : x.toRat = (x.steps : ℚ) / unit := by
  rw [toRat, Rat.mkRat_eq_div]
  rfl

/-- A number is given by its exponent and its significand. Unless the exponent is the least one, the
significand has 53 bits. -/
theorem bits_eq (x : Binary64) :
    x.bits = x.exponent * fractions + x.significand ∧ x.significand < 2 * fractions ∧
      (x.exponent = 0 ∨ fractions ≤ x.significand) := by
  have hsplit := Nat.div_add_mod x.bits fractions
  have hrest := Nat.mod_lt x.bits fractions_pos
  rw [significand, exponent]
  cases hquotient : x.bits / fractions with
  | zero =>
      rw [hquotient, Nat.mul_zero] at hsplit
      omega
  | succ exponent =>
      rw [hquotient, Nat.mul_succ, Nat.mul_comm] at hsplit
      rw [Nat.add_sub_cancel]
      omega

/-- The steps of a number whose bits are put together from an exponent and a significand. A
significand of 54 bits carries into the exponent. -/
theorem steps_of_bits {exponent significand : Nat} (hle : significand ≤ 2 * fractions)
    (hnormal : exponent = 0 ∨ fractions ≤ significand) :
    steps ⟨exponent * fractions + significand⟩ = significand * 2 ^ exponent := by
  have hquotient : (exponent * fractions + significand) / fractions =
      exponent + significand / fractions := by
    rw [Nat.mul_comm, Nat.mul_add_div fractions_pos]
  rw [steps, Binary64.significand, Binary64.exponent, hquotient]
  rcases Nat.lt_or_ge significand fractions with hsmall | hlarge
  · -- A significand of fewer bits stands under the least exponent only.
    obtain rfl : exponent = 0 := by omega
    rw [Nat.div_eq_of_lt hsmall]
    simp
  · rcases Nat.lt_or_ge significand (2 * fractions) with hlt | hge
    · have hone : significand / fractions = 1 := by
        rw [Nat.div_eq_iff fractions_pos]
        omega
      rw [hone, Nat.add_sub_cancel, Nat.add_sub_cancel_left]
    · obtain rfl : significand = 2 * fractions := by omega
      have hcarry : exponent * fractions + 2 * fractions - (exponent + 1) * fractions =
          fractions := by
        rw [Nat.add_mul]
        omega
      rw [Nat.mul_div_cancel 2 fractions_pos, Nat.add_succ_sub_one, hcarry, Nat.pow_succ]
      ring

/-- Numbers come in the order of their bits. -/
theorem steps_strictMono : StrictMono fun bits => steps ⟨bits⟩ := by
  apply strictMono_nat_of_lt_succ
  intro bits
  obtain ⟨hbits, hlt, hnormal⟩ := bits_eq ⟨bits⟩
  generalize exponent ⟨bits⟩ = e at hbits hnormal
  generalize significand ⟨bits⟩ = s at hbits hlt hnormal
  obtain rfl : bits = e * fractions + s := hbits
  rw [Nat.add_assoc, steps_of_bits (Nat.le_of_lt hlt) hnormal, steps_of_bits (by omega) (by omega)]
  exact Nat.mul_lt_mul_of_pos_right (Nat.lt_succ_self s) (Nat.two_pow_pos e)

theorem steps_lt_iff {x y : Binary64} : x.steps < y.steps ↔ x.bits < y.bits :=
  steps_strictMono.lt_iff_lt

theorem eq_of_bits {x y : Binary64} (h : x.bits = y.bits) : x = y := by
  cases x
  cases y
  exact congrArg Binary64.mk h

theorem steps_inj {x y : Binary64} (h : x.steps = y.steps) : x = y :=
  eq_of_bits (steps_strictMono.injective h)

theorem steps_infinity : infinity.steps = 2 ^ 1024 * unit := by decide +kernel

/-- As a number, infinity would follow the largest finite one. -/
theorem toRat_infinity : infinity.toRat = 2 ^ 1024 := by
  have hunit : (unit : ℚ) ≠ 0 := Nat.cast_ne_zero.2 unit_pos.ne'
  rw [toRat_eq, steps_infinity, Nat.cast_mul, mul_div_cancel_right₀ _ hunit, Nat.cast_pow]
  rfl

/-! ## The nearest integer -/

/-- An integer is rounded down if it is not nearer to the next one, and a half makes it even. -/
theorem roundHalfEven_cases (n d : Nat) :
    (roundHalfEven n d = n / d ∧ 2 * (n % d) ≤ d ∧
        (2 * (n % d) = d → roundHalfEven n d % 2 = 0)) ∨
      (roundHalfEven n d = n / d + 1 ∧ d ≤ 2 * (n % d) ∧
        (2 * (n % d) = d → roundHalfEven n d % 2 = 0)) := by
  rw [roundHalfEven]
  split
  · rename_i hdown
    simp only [Bool.or_eq_true, Bool.and_eq_true, decide_eq_true_eq, beq_iff_eq] at hdown
    exact Or.inl ⟨rfl, by omega, by omega⟩
  · rename_i hup
    simp only [Bool.or_eq_true, Bool.and_eq_true, decide_eq_true_eq, beq_iff_eq] at hup
    exact Or.inr ⟨rfl, by omega, by omega⟩

/-- What is rounded to an integer is nearer to it than to any other, or as near and the integer is
even. -/
theorem roundHalfEven_nearest (n : Nat) {d k : Nat} (hd : 0 < d) (hk : k ≠ roundHalfEven n d) :
    Nat.dist (roundHalfEven n d * d) n < Nat.dist (k * d) n ∨
      Nat.dist (roundHalfEven n d * d) n = Nat.dist (k * d) n ∧ roundHalfEven n d % 2 = 0 := by
  have hsplit := Nat.div_add_mod n d
  have hrest := Nat.mod_lt n hd
  rw [Nat.mul_comm] at hsplit
  -- Other integers are at least one whole away.
  have hside : k * d + d ≤ roundHalfEven n d * d ∨ roundHalfEven n d * d + d ≤ k * d := by
    rw [← Nat.succ_mul, ← Nat.succ_mul]
    exact (Nat.lt_or_gt_of_ne hk).imp (Nat.mul_le_mul_right d) (Nat.mul_le_mul_right d)
  rw [Nat.dist, Nat.dist]
  rcases roundHalfEven_cases n d with ⟨hround, hle, heven⟩ | ⟨hround, hle, heven⟩
  · have hvalue : roundHalfEven n d * d = n / d * d := by rw [hround]
    omega
  · have hvalue : roundHalfEven n d * d = n / d * d + d := by rw [hround, Nat.succ_mul]
    omega

/-! ## The nearest number -/

/-- The number nearest to a rational: any other one is farther away, or as far away while the bits
of this one are even. Infinity takes part as `2 ^ 1024`, and no bits beyond its own spell a
number. -/
structure IsNearest (x : Binary64) (q : ℚ) : Prop where
  bits_le : x.bits ≤ infinity.bits
  nearer : ∀ y : Binary64, y.bits ≤ infinity.bits → y ≠ x →
    |x.toRat - q| < |y.toRat - q| ∨ |x.toRat - q| = |y.toRat - q| ∧ x.bits % 2 = 0

theorem cast_dist (a b : Nat) : ((Nat.dist a b : Nat) : ℚ) = |(a : ℚ) - b| := by
  rcases Nat.le_total a b with hle | hle
  · rw [Nat.dist_eq_sub_of_le hle, Nat.cast_sub hle, abs_sub_comm,
      abs_of_nonneg (sub_nonneg.2 (Nat.cast_le.2 hle))]
  · rw [Nat.dist_eq_sub_of_le_right hle, Nat.cast_sub hle,
      abs_of_nonneg (sub_nonneg.2 (Nat.cast_le.2 hle))]

/-- The distance of a number from a fraction, over a denominator that does not depend on the
number. -/
theorem abs_toRat_sub (x : Binary64) (n : Nat) {d : Nat} (hd : 0 < d) :
    |x.toRat - (n : ℚ) / d| = (Nat.dist (x.steps * d) (n * unit) : ℚ) / (unit * d : Nat) := by
  have hd' : (0 : ℚ) < d := Nat.cast_pos.2 hd
  have hunit : (0 : ℚ) < unit := Nat.cast_pos.2 unit_pos
  have hsub : x.toRat - (n : ℚ) / d =
      ((x.steps : ℚ) * d - n * unit) / (unit * d : Nat) := by
    rw [toRat_eq, Nat.cast_mul, div_sub_div _ _ hunit.ne' hd'.ne', mul_comm (n : ℚ) unit]
  rw [hsub, abs_div, Nat.abs_cast, cast_dist, Nat.cast_mul, Nat.cast_mul,
    Nat.cast_mul]

/-- The exponent leaves a significand of 53 bits, or of 54 bits if it is rounded up to that. -/
theorem significand_bounds (n d : Nat) :
    roundHalfEven n (d * 2 ^ ((n / d).log2 - 52)) ≤ 2 * fractions ∧
      ((n / d).log2 - 52 = 0 ∨
        fractions ≤ roundHalfEven n (d * 2 ^ ((n / d).log2 - 52)) ∧
          fractions * (d * 2 ^ ((n / d).log2 - 52)) ≤ n) := by
  have hfractions : fractions = 2 ^ 52 := rfl
  have hround := roundHalfEven_cases n (d * 2 ^ ((n / d).log2 - 52))
  rw [← Nat.div_div_eq_div_mul] at hround
  have hlt := Nat.lt_log2_self (n := n / d)
  rcases Nat.le_total (n / d).log2 52 with hsmall | hlarge
  · -- Under the least exponent there are no more bits than fit.
    have hpow : 2 ^ ((n / d).log2 + 1) ≤ 2 * fractions := by
      rw [hfractions, ← Nat.pow_succ']
      exact Nat.pow_le_pow_right (by decide) (by omega)
    rw [Nat.sub_eq_zero_of_le hsmall, Nat.pow_zero, Nat.div_one] at hround
    rw [Nat.sub_eq_zero_of_le hsmall, Nat.pow_zero]
    exact ⟨by omega, Or.inl rfl⟩
  · obtain ⟨e, he⟩ := Nat.exists_eq_add_of_le hlarge
    have hne : n / d ≠ 0 := by
      intro hzero
      rw [hzero, Nat.log2_zero] at he
      omega
    have hle := Nat.log2_self_le hne
    rw [he, Nat.pow_add] at hle
    rw [he, Nat.pow_succ', Nat.pow_add, ← Nat.mul_assoc] at hlt
    rw [he, Nat.add_sub_cancel_left] at hround ⊢
    have hpow := Nat.two_pow_pos e
    have hlow : fractions ≤ n / d / 2 ^ e := (Nat.le_div_iff_mul_le hpow).2 hle
    have hhigh : n / d / 2 ^ e < 2 * fractions := (Nat.div_lt_iff_lt_mul hpow).2 hlt
    have hscaled : fractions * (d * 2 ^ e) ≤ n :=
      calc fractions * (d * 2 ^ e) = fractions * 2 ^ e * d := by ring
        _ ≤ n / d * d := Nat.mul_le_mul_right d hle
        _ ≤ n := Nat.div_mul_le_self n d
    exact ⟨by omega, Or.inr ⟨by omega, hscaled⟩⟩

/-- The number before it is bounded by infinity. -/
def unbounded (n d : Nat) : Binary64 :=
  let exponent := (n / d).log2 - 52
  ⟨exponent * fractions + roundHalfEven n (d * 2 ^ exponent)⟩

theorem unbounded_nearest (n : Nat) {d : Nat} (hd : 0 < d) {y : Binary64} (hy : y ≠ unbounded n d) :
    Nat.dist ((unbounded n d).steps * d) n < Nat.dist (y.steps * d) n ∨
      Nat.dist ((unbounded n d).steps * d) n = Nat.dist (y.steps * d) n ∧
        (unbounded n d).bits % 2 = 0 := by
  obtain ⟨hle, hnormal⟩ := significand_bounds n d
  have hsteps := steps_of_bits hle (hnormal.imp_right And.left)
  have hinj : y.steps ≠ (unbounded n d).steps := fun h => hy (steps_inj h)
  rw [unbounded] at hinj ⊢
  dsimp only at hinj ⊢
  rw [hsteps] at hinj ⊢
  generalize (n / d).log2 - 52 = e at *
  have hD : 0 < d * 2 ^ e := Nat.mul_pos hd (Nat.two_pow_pos e)
  have hparity : (e * fractions + roundHalfEven n (d * 2 ^ e)) % 2 =
      roundHalfEven n (d * 2 ^ e) % 2 := by
    rw [show fractions = 2 * 2 ^ 51 from rfl, Nat.mul_left_comm, Nat.mul_add_mod]
  have hvalue : roundHalfEven n (d * 2 ^ e) * 2 ^ e * d =
      roundHalfEven n (d * 2 ^ e) * (d * 2 ^ e) := by ring
  rw [hparity, hvalue]
  obtain ⟨-, hlt, -⟩ := bits_eq y
  rcases Nat.lt_or_ge y.exponent e with hexp | hexp
  · -- The other number lies below all that have the exponent, and below the fraction.
    obtain ⟨-, hbelow⟩ := hnormal.resolve_left (Nat.ne_of_gt (Nat.zero_lt_of_lt hexp))
    have hother : y.steps * d < fractions * (d * 2 ^ e) :=
      calc y.steps * d < 2 * fractions * 2 ^ y.exponent * d :=
            Nat.mul_lt_mul_of_pos_right
              (Nat.mul_lt_mul_of_pos_right hlt (Nat.two_pow_pos _)) hd
        _ = fractions * (d * 2 ^ (y.exponent + 1)) := by ring
        _ ≤ fractions * (d * 2 ^ e) :=
            Nat.mul_le_mul_left _ (Nat.mul_le_mul_left d (Nat.pow_le_pow_right (by decide) hexp))
    have hleast : Nat.dist (roundHalfEven n (d * 2 ^ e) * (d * 2 ^ e)) n ≤
        Nat.dist (fractions * (d * 2 ^ e)) n := by
      by_cases heq : fractions = roundHalfEven n (d * 2 ^ e)
      · rw [← heq]
      · exact (roundHalfEven_nearest n hD heq).elim Nat.le_of_lt fun h => Nat.le_of_eq h.1
    left
    rw [Nat.dist_eq_sub_of_le hbelow] at hleast
    rw [Nat.dist_eq_sub_of_le (Nat.le_of_lt (Nat.lt_of_lt_of_le hother hbelow))]
    omega
  · -- The steps of the other number are a multiple of the same power.
    obtain ⟨more, hmore⟩ := Nat.exists_eq_add_of_le hexp
    have hk : y.steps = y.significand * 2 ^ more * 2 ^ e := by
      rw [steps, hmore, Nat.pow_add]
      ring
    have hother : y.steps * d = y.significand * 2 ^ more * (d * 2 ^ e) := by
      rw [hk]
      ring
    rw [hother]
    apply roundHalfEven_nearest n hD
    intro heq
    rw [hk, heq] at hinj
    exact hinj rfl

/-- A rounding that is cut at infinity gives the nearest number. -/
theorem isNearest_of_bits {x : Binary64} {n d : Nat} (hd : 0 < d)
    (hx : x.bits = min (unbounded (n * unit) d).bits infinity.bits) :
    IsNearest x ((n : ℚ) / d) where
  bits_le := hx ▸ Nat.min_le_right _ _
  nearer := by
    intro y hy hne
    have hden : (0 : ℚ) < (unit * d : Nat) := Nat.cast_pos.2 (Nat.mul_pos unit_pos hd)
    rw [abs_toRat_sub _ _ hd, abs_toRat_sub _ _ hd, div_lt_div_iff_of_pos_right hden,
      div_left_inj' hden.ne', Nat.cast_lt, Nat.cast_inj]
    rcases Nat.lt_or_ge infinity.bits (unbounded (n * unit) d).bits with hbeyond | hwithin
    · -- What is rounded lies beyond infinity, which is therefore nearer than all below it.
      obtain rfl : x = infinity := eq_of_bits (hx.trans (Nat.min_eq_right (Nat.le_of_lt hbeyond)))
      have hinfinity : infinity ≠ unbounded (n * unit) d :=
        fun heq => Nat.ne_of_lt hbeyond (congrArg bits heq)
      have hbelow : y.bits < infinity.bits :=
        Nat.lt_of_le_of_ne hy fun heq => hne (eq_of_bits heq)
      have hup := Nat.mul_lt_mul_of_pos_right (steps_lt_iff.2 hbeyond) hd
      have hdown := Nat.mul_lt_mul_of_pos_right (steps_lt_iff.2 hbelow) hd
      have hle := (unbounded_nearest (n * unit) hd hinfinity).elim Nat.le_of_lt
        fun h => Nat.le_of_eq h.1
      left
      simp only [Nat.dist] at hle ⊢
      omega
    · obtain rfl : x = unbounded (n * unit) d := eq_of_bits (hx.trans (Nat.min_eq_left hwithin))
      exact unbounded_nearest (n * unit) hd hne

/-- The number that rounding gives is the nearest one. -/
theorem isNearest_nearest {q : ℚ} (h : 0 ≤ q) : IsNearest (nearest q) q := by
  have hq : (q.num.toNat : ℚ) / q.den = q := by
    have hnum : ((q.num.toNat : ℤ) : ℚ) = q.num := by
      rw [Int.toNat_of_nonneg (Rat.num_nonneg.2 h)]
    rw [← Int.cast_natCast, hnum, Rat.num_div_den]
  have hnearest : IsNearest (nearest q) ((q.num.toNat : ℚ) / q.den) :=
    isNearest_of_bits q.den_pos rfl
  rwa [hq] at hnearest

theorem toRat_lt {x y : Binary64} (h : x.bits < y.bits) : x.toRat < y.toRat := by
  rw [toRat_eq, toRat_eq]
  exact div_lt_div_of_pos_right (Nat.cast_lt.2 (steps_lt_iff.2 h)) (Nat.cast_pos.2 unit_pos)

/-- Of two numbers that are nearest, neither comes before the other. Both would be even, so that
there would be a number between them, which would be nearer. -/
theorem IsNearest.not_lt {x y : Binary64} {q : ℚ} (hx : IsNearest x q) (hy : IsNearest y q) :
    ¬ x.bits < y.bits := by
  intro hlt
  have hne : y ≠ x := by
    rintro rfl
    exact Nat.lt_irrefl _ hlt
  obtain ⟨heq, hevenx, heveny⟩ :
      |x.toRat - q| = |y.toRat - q| ∧ x.bits % 2 = 0 ∧ y.bits % 2 = 0 := by
    rcases hx.nearer y hy.bits_le hne with hless | ⟨heq, hevenx⟩
    · rcases hy.nearer x hx.bits_le hne.symm with hmore | ⟨heq, -⟩
      · exact absurd hmore hless.asymm
      · exact absurd heq hless.ne'
    · rcases hy.nearer x hx.bits_le hne.symm with hmore | ⟨-, heveny⟩
      · exact absurd heq hmore.ne'
      · exact ⟨heq, hevenx, heveny⟩
  have hbits : x.bits + 1 < y.bits := by omega
  have hup : x.toRat < toRat ⟨x.bits + 1⟩ := toRat_lt (Nat.lt_succ_self _)
  have hdown : toRat ⟨x.bits + 1⟩ < y.toRat := toRat_lt hbits
  -- The rational lies half way, since it is equally far from both.
  have hmiddle : x.toRat - q = -(y.toRat - q) := by
    rcases abs_eq_abs.1 heq with hsame | hopposite
    · linarith
    · exact hopposite
  have hcloser : |toRat ⟨x.bits + 1⟩ - q| < |x.toRat - q| := by
    rw [abs_of_neg (a := x.toRat - q) (by linarith), abs_lt]
    exact ⟨by linarith, by linarith⟩
  have hbetween : (⟨x.bits + 1⟩ : Binary64) ≠ x := fun h => absurd (congrArg bits h) (by simp)
  have hle : x.bits + 1 ≤ infinity.bits := Nat.le_trans (Nat.le_of_lt hbits) hy.bits_le
  rcases hx.nearer ⟨x.bits + 1⟩ hle hbetween with hless | ⟨hsame, -⟩
  · exact hcloser.asymm hless
  · exact hcloser.ne' hsame

/-- No two numbers are nearest to one rational. -/
theorem IsNearest.unique {x y : Binary64} {q : ℚ} (hx : IsNearest x q) (hy : IsNearest y q) :
    x = y :=
  eq_of_bits (Nat.le_antisymm (Nat.le_of_not_lt (hy.not_lt hx)) (Nat.le_of_not_lt (hx.not_lt hy)))

end UtilityCss.Binary64
