import Mathlib.Tactic.Linarith
import TypeDB.Encoding.Decimal

/-! Products of decimals. The source puts them together from four partial products and lets the
product of the integer parts overflow, which panics only in a build with overflow checks; the
product of the fractional parts is rounded up at ties, whatever the signs. -/

namespace TypeDB.Encoding.Decimal
open Int

variable (overflowChecks : Bool)

def mulI64 (a b : Int) : Option Int :=
  if overflowChecks then i64 (a * b) else some ((a * b).bmod (2 ^ 64))

/-- `while fractional < 0`; each round adds at least one. -/
def borrow : Nat → Int → Int → Int × Int
  | 0, carry, fractional => (carry, fractional)
  | rounds + 1, carry, fractional =>
    if fractional < 0 then borrow rounds (carry - 1) (fractional + fractionalPartDenominator)
    else (carry, fractional)

variable (lhs rhs : Decimal)

def mulFractional : Int :=
  (lhs.fractional * rhs.fractional + fractionalPartDenominator / 2) / fractionalPartDenominator
    + (lhs.fractional * rhs.integer).tmod fractionalPartDenominator
    + (lhs.integer * rhs.fractional).tmod fractionalPartDenominator

def mul : Option Decimal := do
  let sum := lhs.mulFractional rhs
  let (carry, fractional) := borrow sum.natAbs (sum.tdiv fractionalPartDenominator)
    (sum.tmod fractionalPartDenominator)
  let integer ← mulI64 overflowChecks lhs.integer rhs.integer
  let integer := integer + (lhs.fractional * rhs.integer).tdiv fractionalPartDenominator
    + (lhs.integer * rhs.fractional).tdiv fractionalPartDenominator + carry
  new (integer.bmod (2 ^ 64)) fractional.toNat

def product : Int := lhs.asInt * rhs.asInt

/-- The sign times the rounded product of the magnitudes, in units of 10⁻¹⁹. -/
def roundedProduct : Int :=
  (product lhs rhs).sign *
    ((|product lhs rhs| + fractionalPartDenominator / 2) / fractionalPartDenominator)

/-- The product lies below zero and halfway between two decimals. -/
def NegativeTie : Prop :=
  product lhs rhs < 0 ∧ product lhs rhs % fractionalPartDenominator = fractionalPartDenominator / 2

/-- With overflow checks the integer parts have a product of 64 bits, and no tie is rounded. -/
def Multipliable : Prop :=
  (overflowChecks = true → InI64 (lhs.integer * rhs.integer)) ∧ ¬ NegativeTie lhs rhs

theorem borrow_of_nonneg {n : Nat} {carry x : Int} (hx : 0 ≤ x) :
    borrow n carry x = (carry, x) := by
  cases n with
  | zero => rfl
  | succ n => rw [borrow, if_neg (not_lt.mpr hx)]

/-- The loop leaves the floor and the remainder of the sum. -/
theorem borrow_tdiv (sum : Int) :
    borrow sum.natAbs (sum.tdiv fractionalPartDenominator) (sum.tmod fractionalPartDenominator) =
      (sum / fractionalPartDenominator, sum % fractionalPartDenominator) := by
  have hD : (fractionalPartDenominator : Int) = 10 ^ 19 := rfl
  rw [hD]
  have hdiv := mul_tdiv_add_tmod sum (10 ^ 19)
  have hlo := lt_tmod_of_pos sum (show (0 : Int) < 10 ^ 19 by norm_num)
  have hhi := tmod_lt_of_pos sum (show (0 : Int) < 10 ^ 19 by norm_num)
  by_cases hneg : sum.tmod (10 ^ 19) < 0
  · have hsum : sum.natAbs ≠ 0 := by
      rintro h
      rw [natAbs_eq_zero.mp h] at hneg
      simp at hneg
    obtain ⟨n, hn⟩ := Nat.exists_eq_succ_of_ne_zero hsum
    rw [hn, borrow, if_pos hneg, hD, borrow_of_nonneg (by omega), Prod.mk.injEq]
    omega
  · rw [borrow_of_nonneg (not_lt.mp hneg), Prod.mk.injEq]
    omega

def mulInteger : Int :=
  lhs.integer * rhs.integer + (lhs.fractional * rhs.integer).tdiv fractionalPartDenominator
    + (lhs.integer * rhs.fractional).tdiv fractionalPartDenominator
    + lhs.mulFractional rhs / fractionalPartDenominator

/-- The parts make up the product, rounded up at ties. -/
theorem mulInteger_mulFractional :
    mulInteger lhs rhs * fractionalPartDenominator +
        lhs.mulFractional rhs % fractionalPartDenominator =
      (product lhs rhs + fractionalPartDenominator / 2) / fractionalPartDenominator := by
  obtain ⟨i, f, -, -⟩ := lhs
  obtain ⟨j, g, -, -⟩ := rhs
  have hD : (fractionalPartDenominator : Int) ≠ 0 := by decide
  have hsum := mul_ediv_add_emod (mulFractional ⟨i, f, ‹_›, ‹_›⟩ ⟨j, g, ‹_›, ‹_›⟩)
    fractionalPartDenominator
  have hleft := mul_tdiv_add_tmod (f * j) fractionalPartDenominator
  have hright := mul_tdiv_add_tmod (i * g) fractionalPartDenominator
  have hproduct : product ⟨i, f, ‹_›, ‹_›⟩ ⟨j, g, ‹_›, ‹_›⟩ + fractionalPartDenominator / 2 =
      (f * g + fractionalPartDenominator / 2) +
        fractionalPartDenominator * (i * j * fractionalPartDenominator + f * j + i * g) := by
    simp only [product, asInt]
    ring
  rw [hproduct, add_mul_ediv_left _ _ hD]
  simp only [mulInteger, mulFractional] at hsum ⊢
  linarith

theorem roundedProduct_eq_iff :
    (product lhs rhs + fractionalPartDenominator / 2) / fractionalPartDenominator =
      roundedProduct lhs rhs ↔ ¬ NegativeTie lhs rhs := by
  simp only [roundedProduct, NegativeTie, show (fractionalPartDenominator : Int) = 10 ^ 19 from rfl]
  generalize product lhs rhs = p
  rcases lt_trichotomy p 0 with hp | rfl | hp
  · rw [sign_eq_neg_one_of_neg hp, abs_of_neg hp]
    omega
  · simp
  · rw [sign_eq_one_of_pos hp, abs_of_pos hp]
    omega

theorem mul_eq : mul overflowChecks lhs rhs =
      if overflowChecks = true → InI64 (lhs.integer * rhs.integer) then
        new ((mulInteger lhs rhs).bmod (2 ^ 64))
          (lhs.mulFractional rhs % fractionalPartDenominator).toNat
      else none := by
  rw [mul, borrow_tdiv]
  cases overflowChecks with
  | true =>
    by_cases h : InI64 (lhs.integer * rhs.integer)
    · simp only [mulI64, if_true, i64_eq_some h, forall_const, if_pos h]
      rfl
    · simp [mulI64, i64, h]
  | false =>
    simp only [mulI64, Bool.false_eq_true, if_false, Option.bind_eq_bind, Option.bind_some,
      false_imp_iff, if_true, add_assoc, bmod_add_bmod, mulInteger]

theorem mul_eq_some
    (hrep : Representable
      ((product lhs rhs + fractionalPartDenominator / 2) / fractionalPartDenominator))
    (hi : overflowChecks = true → InI64 (lhs.integer * rhs.integer)) :
    ∃ d, mul overflowChecks lhs rhs = some d ∧
      d.asInt = (product lhs rhs + fractionalPartDenominator / 2) / fractionalPartDenominator := by
  have hlo := emod_nonneg (lhs.mulFractional rhs)
    (show (fractionalPartDenominator : Int) ≠ 0 by decide)
  have hhi := emod_lt_of_pos (lhs.mulFractional rhs)
    (show (0 : Int) < fractionalPartDenominator by decide)
  rw [← mulInteger_mulFractional] at hrep ⊢
  obtain ⟨f, hf⟩ := eq_ofNat_of_zero_le hlo
  rw [hf] at hrep hhi ⊢
  have hlt : f < fractionalPartDenominator := by exact_mod_cast hhi
  have hin : InI64 (mulInteger lhs rhs) := (representable_iff hlt).mp hrep
  have hwrap : (mulInteger lhs rhs).bmod (2 ^ 64) = mulInteger lhs rhs :=
    bmod_eq_of_le hin.1 hin.2
  rw [mul_eq, if_pos hi, hwrap, hf, toNat_natCast, new_eq_some hin hlt]
  exact ⟨_, rfl, rfl⟩

theorem exact_mul_iff :
    Exact (mul overflowChecks lhs rhs) (roundedProduct lhs rhs) ↔
      (Representable (roundedProduct lhs rhs) → Multipliable overflowChecks lhs rhs) := by
  refine forall_congr' fun hrep => ?_
  -- a tie below zero is rounded towards it
  have hup : Representable
      ((product lhs rhs + fractionalPartDenominator / 2) / fractionalPartDenominator) := by
    by_cases htie : NegativeTie lhs rhs
    · obtain ⟨hneg, hmod⟩ := htie
      simp only [roundedProduct, sign_eq_neg_one_of_neg hneg, abs_of_neg hneg, Representable,
        show (fractionalPartDenominator : Int) = 10 ^ 19 from rfl] at *
      omega
    · rwa [(roundedProduct_eq_iff lhs rhs).mpr htie]
  rw [Multipliable, ← roundedProduct_eq_iff]
  by_cases hi : overflowChecks = true → InI64 (lhs.integer * rhs.integer)
  · obtain ⟨d, hd, heq⟩ := mul_eq_some overflowChecks lhs rhs hup hi
    simpa [hd, heq] using fun _ => hi
  · simp [mul_eq, hi]

theorem roundedProduct_neg {lhs opposite : Decimal} (rhs : Decimal)
    (h : opposite.asInt = -lhs.asInt) :
    roundedProduct opposite rhs = -roundedProduct lhs rhs := by
  have hproduct : product opposite rhs = -product lhs rhs := by rw [product, product, h, neg_mul]
  rw [roundedProduct, roundedProduct, hproduct, sign_neg, abs_neg, neg_mul]

/-- A product that can be represented is computed unless it is a tie below zero or, with overflow
checks, the integer parts overflow; where that is so for a decimal and its opposite, so are the
products. -/
theorem mul_rounds_iff :
    (Exact (mul overflowChecks lhs rhs) (roundedProduct lhs rhs) ↔
      (Representable (roundedProduct lhs rhs) → Multipliable overflowChecks lhs rhs)) ∧
    ∀ opposite p q, opposite.asInt = -lhs.asInt →
      Representable (roundedProduct lhs rhs) → Representable (roundedProduct opposite rhs) →
      Multipliable overflowChecks lhs rhs → Multipliable overflowChecks opposite rhs →
      mul overflowChecks lhs rhs = some p → mul overflowChecks opposite rhs = some q →
      q.asInt = -p.asInt := by
  refine ⟨exact_mul_iff overflowChecks lhs rhs, ?_⟩
  intro opposite p q hopposite hrep hrep' hm hm' hp hq
  obtain ⟨d, hd, heq⟩ := (exact_mul_iff overflowChecks lhs rhs).mpr (fun _ => hm) hrep
  obtain ⟨d', hd', heq'⟩ := (exact_mul_iff overflowChecks opposite rhs).mpr (fun _ => hm') hrep'
  obtain rfl := Option.some.inj (hd.symm.trans hp)
  obtain rfl := Option.some.inj (hd'.symm.trans hq)
  rw [heq', heq, roundedProduct_neg rhs hopposite]

theorem inI64_zero : InI64 0 := by decide
theorem inI64_neg_one : InI64 (-1) := by decide
theorem inI64_least : InI64 (-2 ^ 63) := by decide
theorem denominator_pos : 0 < fractionalPartDenominator := by decide
theorem half_lt_denominator : 5 * 10 ^ 18 < fractionalPartDenominator := by decide

def minusUnit : Decimal := ⟨-1, 10 ^ 19 - 1, inI64_neg_one, by decide⟩

def half : Decimal := ⟨0, 5 * 10 ^ 18, inI64_zero, half_lt_denominator⟩

def minimum : Decimal := ⟨-2 ^ 63, 0, inI64_least, denominator_pos⟩

/-- Half a unit below zero is rounded to zero in either build, and half the least decimal is not
computed with overflow checks. -/
theorem mul_not_rounds :
    (∀ overflowChecks,
      ¬ Exact (mul overflowChecks minusUnit half) (roundedProduct minusUnit half)) ∧
      ¬ Exact (mul true minimum minusHalf) (roundedProduct minimum minusHalf) := by
  simp only [exact_mul_iff, Multipliable, NegativeTie, Representable]
  decide

end TypeDB.Encoding.Decimal
