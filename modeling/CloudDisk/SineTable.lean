import Mathlib.Analysis.Complex.Trigonometric
import Mathlib.Algebra.Order.Floor.Semiring
import Mathlib.Analysis.Complex.Basic
import Mathlib.Tactic.FieldSimp
import Mathlib.Tactic.Linarith
import Mathlib.Tactic.NormNum
import Mathlib.Tactic.Ring

/-! # Integer parts of sines

Tables of constants are made from the sines of the first integers. The powers of one Gaussian
integer near `19! * exp I` are close enough to the sines of the integers up to 64 to read the
integer part of `c * |sin k|` off them, for factors `c` up to `2 ^ 32`. -/
namespace SineTable

open Complex

def scale : ℤ := 121645100408832000

/-- The first twenty terms of the series of `exp I`, times `19!`. -/
def unitRe : ℤ := 65725128248453315

def unitIm : ℤ := 102360822438075317

def turn : ℕ → ℤ × ℤ
  | 0 => (1, 0)
  | k + 1 => ((turn k).1 * unitRe - (turn k).2 * unitIm, (turn k).1 * unitIm + (turn k).2 * unitRe)

noncomputable def unit : ℂ := (unitRe + unitIm * I) / scale

theorem unit_eq : unit = ∑ m ∈ Finset.range 20, I ^ m / (m.factorial : ℂ) := by
  simp only [Finset.sum_range_succ, Finset.sum_range_zero, Nat.factorial, unit, unitRe, unitIm,
    scale, pow_succ, pow_zero, one_mul, I_mul_I, neg_mul]
  norm_num
  ring

theorem norm_exp_sub_unit : ‖exp I - unit‖ ≤ 1 / 10 ^ 17 := by
  rw [unit_eq]
  apply (exp_bound (by simp) (by norm_num)).trans
  simp only [norm_I, one_pow, one_mul, Nat.factorial]
  norm_num

theorem norm_pow_sub_pow_le {u w : ℂ} {δ : ℝ} (hu : ‖u‖ = 1) (h : ‖u - w‖ ≤ δ) (k : ℕ)
    (hk : 2 * k * δ ≤ 1) : ‖u ^ k - w ^ k‖ ≤ 2 * k * δ := by
  have hδ : 0 ≤ δ := (norm_nonneg _).trans h
  induction k with
  | zero => simp
  | succ k ih =>
    push_cast at hk ⊢
    have hpow : ‖u ^ k - w ^ k‖ ≤ 2 * k * δ := ih (by linarith)
    have hw : ‖w ^ k‖ ≤ 2 := by
      calc ‖w ^ k‖ = ‖u ^ k - (u ^ k - w ^ k)‖ := by ring_nf
        _ ≤ ‖u ^ k‖ + ‖u ^ k - w ^ k‖ := norm_sub_le _ _
        _ ≤ 2 := by
          rw [norm_pow, hu, one_pow]
          linarith
    calc ‖u ^ (k + 1) - w ^ (k + 1)‖ = ‖u * (u ^ k - w ^ k) + (u - w) * w ^ k‖ := by ring_nf
      _ ≤ ‖u * (u ^ k - w ^ k)‖ + ‖(u - w) * w ^ k‖ := norm_add_le _ _
      _ = ‖u ^ k - w ^ k‖ + ‖u - w‖ * ‖w ^ k‖ := by rw [norm_mul, norm_mul, hu, one_mul]
      _ ≤ 2 * k * δ + δ * 2 := by gcongr
      _ = 2 * (k + 1) * δ := by ring

theorem unit_pow (k : ℕ) : unit ^ k = ((turn k).1 + (turn k).2 * I) / (scale : ℂ) ^ k := by
  induction k with
  | zero => simp [turn]
  | succ k ih =>
    have hscale : (scale : ℂ) ≠ 0 := by simp [scale]
    rw [pow_succ, ih, unit, turn]
    push_cast
    field_simp
    ring_nf
    rw [I_sq]
    ring

theorem unit_pow_im (k : ℕ) : (unit ^ k).im = (turn k).2 / (scale : ℝ) ^ k := by
  have hreal : ((scale : ℂ) ^ k) = (((scale : ℝ) ^ k : ℝ) : ℂ) := by push_cast; rfl
  rw [unit_pow, hreal, div_ofReal_im]
  simp

theorem exp_I_pow_im (k : ℕ) : (exp I ^ k).im = Real.sin k := by
  rw [← exp_nat_mul, exp_im]
  simp

theorem abs_sin_sub_le {k : ℕ} (hk : k ≤ 64) :
    |Real.sin k - (turn k).2 / (scale : ℝ) ^ k| ≤ 128 / 10 ^ 17 := by
  have hk' : (k : ℝ) ≤ 64 := by exact_mod_cast hk
  have hnorm : ‖exp I‖ = 1 := by simpa using norm_exp_ofReal_mul_I 1
  have hpow := norm_pow_sub_pow_le hnorm norm_exp_sub_unit k (by linarith)
  calc |Real.sin k - (turn k).2 / (scale : ℝ) ^ k| = |(exp I ^ k - unit ^ k).im| := by
        rw [sub_im, exp_I_pow_im, unit_pow_im]
    _ ≤ ‖exp I ^ k - unit ^ k‖ := abs_im_le_norm _
    _ ≤ 2 * k * (1 / 10 ^ 17) := hpow
    _ ≤ 128 / 10 ^ 17 := by linarith

/-- The `k`-th power is farther than a hundredth from the border of the integer part. -/
def Digits (c : ℕ) (k t : ℕ) : Prop :=
  (100 * t + 1) * scale.natAbs ^ k ≤ 100 * (c * (turn k).2.natAbs) ∧
    100 * (c * (turn k).2.natAbs) ≤ (100 * t + 99) * scale.natAbs ^ k

instance (c k t : ℕ) : Decidable (Digits c k t) := inferInstanceAs (Decidable (_ ∧ _))

theorem floor_abs_sin {c k t : ℕ} (hc : c ≤ 2 ^ 32) (hk : k ≤ 64) (h : Digits c k t) :
    ⌊c * |Real.sin k|⌋₊ = t := by
  obtain ⟨hlo, hhi⟩ := h
  have hscale : (0 : ℝ) < (scale.natAbs : ℝ) ^ k := by simp [scale]
  have hc' : (c : ℝ) ≤ 2 ^ 32 := by exact_mod_cast hc
  have habs : |(turn k).2 / (scale : ℝ) ^ k| = (turn k).2.natAbs / (scale.natAbs : ℝ) ^ k := by
    rw [abs_div, abs_pow, Nat.cast_natAbs, Nat.cast_natAbs, Int.cast_abs, Int.cast_abs]
  -- the distance of the two absolute values
  have hnear : |(|Real.sin k| - (turn k).2.natAbs / (scale.natAbs : ℝ) ^ k)| ≤ 128 / 10 ^ 17 := by
    rw [← habs]
    exact (abs_abs_sub_abs_le _ _).trans (abs_sin_sub_le hk)
  obtain ⟨hge, hle⟩ := abs_le.mp hnear
  have hlo' : (t + 1 / 100 : ℝ) ≤ c * ((turn k).2.natAbs / (scale.natAbs : ℝ) ^ k) := by
    have hcast : ((100 * t + 1) * scale.natAbs ^ k : ℝ) ≤ 100 * (c * (turn k).2.natAbs) := by
      exact_mod_cast hlo
    rw [← mul_div_assoc, le_div_iff₀ hscale]
    linarith
  have hhi' : c * ((turn k).2.natAbs / (scale.natAbs : ℝ) ^ k) ≤ (t + 99 / 100 : ℝ) := by
    have hcast : (100 * (c * (turn k).2.natAbs) : ℝ) ≤ (100 * t + 99) * scale.natAbs ^ k := by
      exact_mod_cast hhi
    rw [← mul_div_assoc, div_le_iff₀ hscale]
    linarith
  have hmul : (c : ℝ) * (128 / 10 ^ 17) < 1 / 100 := by
    calc (c : ℝ) * (128 / 10 ^ 17) ≤ 2 ^ 32 * (128 / 10 ^ 17) := by gcongr
      _ < 1 / 100 := by norm_num
  have hc0 : (0 : ℝ) ≤ c := Nat.cast_nonneg c
  rw [Nat.floor_eq_iff (by positivity)]
  constructor
  · have hbelow := mul_le_mul_of_nonneg_left hge hc0
    linarith
  · have habove := mul_le_mul_of_nonneg_left hle hc0
    linarith

end SineTable
