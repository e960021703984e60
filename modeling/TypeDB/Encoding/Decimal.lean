import Mathlib.Tactic.Ring
import Mathlib.Tactic.NormNum
import Mathlib.Data.Int.Order.Basic

/-! Fixed-point decimals: a 64-bit integer part and a count of units of 10⁻¹⁹. Arithmetic is that
of a build with overflow checks, `none` where it panics. -/

namespace TypeDB.Encoding

def fractionalPartDenominator : Nat := 10 ^ 19

def InI64 (x : Int) : Prop := -2 ^ 63 ≤ x ∧ x < 2 ^ 63

instance (x : Int) : Decidable (InI64 x) := inferInstanceAs (Decidable (_ ∧ _))

def i64 (x : Int) : Option Int := if InI64 x then some x else none

def u64 (x : Nat) : Option Nat := if x < 2 ^ 64 then some x else none

def overflowingAdd (a b : Nat) : Nat × Bool := ((a + b) % 2 ^ 64, decide (2 ^ 64 ≤ a + b))

def overflowingSub (a b : Nat) : Nat × Bool := ((a + 2 ^ 64 - b) % 2 ^ 64, decide (a < b))

structure Decimal where
  integer : Int
  fractional : Nat
  integer_inI64 : InI64 integer
  fractional_lt : fractional < fractionalPartDenominator
  deriving DecidableEq

namespace Decimal

def new (integer : Int) (fractionalParts : Nat) : Option Decimal :=
  if h : InI64 integer ∧ fractionalParts < fractionalPartDenominator then
    some ⟨integer, fractionalParts, h.1, h.2⟩
  else none

def default : Decimal := ⟨0, 0, by decide, by decide⟩

def carried (integer carry : Int) (fractional : Nat) : Option Decimal := do
  let integer ← i64 integer
  let integer ← i64 (integer + carry)
  new integer fractional

def addFractional (a b : Nat) : Option (Nat × Int) :=
  match overflowingAdd a b with
  | (frac, false) =>
    if frac < fractionalPartDenominator then some (frac, 0)
    else some (frac - fractionalPartDenominator, 1)
  | (frac, true) =>
    if frac < fractionalPartDenominator then do
      let frac ← u64 (frac + (overflowingSub 0 fractionalPartDenominator).1)
      some (frac, 1)
    -- `unreachable!`
    else none

variable (lhs rhs : Decimal)

def add : Option Decimal := do
  let (fractional, carry) ← addFractional lhs.fractional rhs.fractional
  carried (lhs.integer + rhs.integer) carry fractional

def subFractional (a b : Nat) : Nat × Int :=
  match overflowingSub a b with
  | (frac, false) => (frac, 0)
  | (frac, true) => ((overflowingAdd frac fractionalPartDenominator).1, 1)

def sub : Option Decimal :=
  let (fractional, carry) := subFractional lhs.fractional rhs.fractional
  carried (lhs.integer - rhs.integer) (-carry) fractional

variable (d : Decimal)

def neg : Option Decimal := default.sub d

def abs : Option Decimal :=
  if d.integer ≥ 0 then some d
  else if d.fractional = 0 then do
    let integer ← i64 (-d.integer)
    new integer 0
  else carried (-d.integer) (-1) (fractionalPartDenominator - d.fractional)

def round : Option Int :=
  match compare d.fractional (fractionalPartDenominator / 2) with
  | .lt => some d.integer
  | .eq => i64 (d.integer + d.integer % 2)
  | .gt => i64 (d.integer + 1)

def asInt : Int := d.integer * fractionalPartDenominator + d.fractional

def Representable (x : Int) : Prop :=
  -2 ^ 63 * (fractionalPartDenominator : Int) ≤ x ∧ x < 2 ^ 63 * (fractionalPartDenominator : Int)

/-- The result is `x` units if a decimal can be. -/
def Exact (result : Option Decimal) (x : Int) : Prop :=
  Representable x → ∃ d, result = some d ∧ d.asInt = x

/-- `n` is the closest integer to `x` units, the even one of two. -/
def IsRounded (x n : Int) : Prop :=
  2 * |x - n * fractionalPartDenominator| ≤ fractionalPartDenominator ∧
    (2 * |x - n * fractionalPartDenominator| = fractionalPartDenominator → n % 2 = 0)

theorem representable_iff {i : Int} {f : Nat} (hf : f < fractionalPartDenominator) :
    Representable (i * fractionalPartDenominator + f) ↔ InI64 i := by
  simp only [Representable, InI64, fractionalPartDenominator] at hf ⊢
  omega

theorem i64_eq_some {x : Int} (h : InI64 x) : i64 x = some x := if_pos h

theorem new_eq_some {i : Int} {f : Nat} (hi : InI64 i) (hf : f < fractionalPartDenominator) :
    new i f = some ⟨i, f, hi, hf⟩ := dif_pos ⟨hi, hf⟩

theorem exact_carried_iff {i carry x : Int} {f : Nat} (hf : f < fractionalPartDenominator)
    (hx : x = (i + carry) * fractionalPartDenominator + f) :
    Exact (carried i carry f) x ↔ (InI64 (i + carry) → InI64 i) := by
  subst hx
  rw [Exact, representable_iff hf]
  refine forall_congr' fun hsum => ⟨?_, fun hi => ?_⟩
  · rintro ⟨d, hd, -⟩
    by_contra hi
    simp [carried, i64, hi] at hd
  · exact ⟨⟨i + carry, f, hsum, hf⟩,
      by simp [carried, i64_eq_some hi, i64_eq_some hsum, new_eq_some hsum hf], rfl⟩

theorem addFractional_eq {a b : Nat} (ha : a < fractionalPartDenominator)
    (hb : b < fractionalPartDenominator) :
    addFractional a b = some (if a + b < fractionalPartDenominator then (a + b, 0)
      else (a + b - fractionalPartDenominator, 1)) := by
  have hD : fractionalPartDenominator = 10 ^ 19 := rfl
  simp only [addFractional, overflowingAdd, overflowingSub, u64]
  by_cases hover : 2 ^ 64 ≤ a + b
  · -- the sum wraps around, below the denominator since both parts are
    have hmod : (a + b) % 2 ^ 64 = a + b - 2 ^ 64 := by omega
    have hback : a + b - 2 ^ 64 + (0 + 2 ^ 64 - fractionalPartDenominator) % 2 ^ 64 =
        a + b - fractionalPartDenominator := by omega
    simp only [hover, decide_true, hmod, hback]
    rw [if_pos (by omega), if_pos (by omega), if_neg (by omega)]
    rfl
  · have hmod : (a + b) % 2 ^ 64 = a + b := by omega
    simp only [hover, decide_false, hmod]
    split_ifs <;> rfl

theorem exact_add_iff : Exact (lhs.add rhs) (lhs.asInt + rhs.asInt) ↔
      ¬ (lhs.integer + rhs.integer = -2 ^ 63 - 1 ∧
        fractionalPartDenominator ≤ lhs.fractional + rhs.fractional) := by
  obtain ⟨i, f, hi, hf⟩ := lhs
  obtain ⟨j, g, hj, hg⟩ := rhs
  simp only [add, asInt, addFractional_eq hf hg, Option.bind_eq_bind, Option.bind_some]
  split_ifs with hlt
  · rw [exact_carried_iff hlt (by push_cast; ring)]
    simp only [InI64] at *
    omega
  · have hle := not_lt.mp hlt
    rw [exact_carried_iff (by omega) (by push_cast [hle]; ring)]
    simp only [InI64] at *
    omega

theorem subFractional_eq {a b : Nat} (ha : a < fractionalPartDenominator)
    (hb : b < fractionalPartDenominator) :
    subFractional a b =
      if a < b then (a + fractionalPartDenominator - b, 1) else (a - b, 0) := by
  simp only [subFractional, overflowingAdd, overflowingSub, fractionalPartDenominator] at *
  by_cases hlt : a < b
  · have hback : ((a + 2 ^ 64 - b) % 2 ^ 64 + 10 ^ 19) % 2 ^ 64 = a + 10 ^ 19 - b := by omega
    simp only [hlt, decide_true, hback, if_true]
  · have hmod : (a + 2 ^ 64 - b) % 2 ^ 64 = a - b := by omega
    simp only [hlt, decide_false, hmod, if_false]

theorem exact_sub_iff : Exact (lhs.sub rhs) (lhs.asInt - rhs.asInt) ↔
      ¬ (lhs.integer - rhs.integer = 2 ^ 63 ∧ lhs.fractional < rhs.fractional) := by
  obtain ⟨i, f, hi, hf⟩ := lhs
  obtain ⟨j, g, hj, hg⟩ := rhs
  simp only [sub, asInt, subFractional_eq hf hg]
  split_ifs with hlt
  · have hle : g ≤ f + fractionalPartDenominator := by omega
    rw [exact_carried_iff (by omega) (by push_cast [hle]; ring)]
    simp only [InI64] at *
    omega
  · have hle := not_lt.mp hlt
    rw [exact_carried_iff (by omega) (by push_cast [hle]; ring)]
    simp only [InI64] at *
    omega

theorem exact_neg_iff :
    Exact d.neg (-d.asInt) ↔ ¬ (d.integer = -2 ^ 63 ∧ d.fractional ≠ 0) := by
  have h := exact_sub_iff default d
  simp only [show default.asInt = 0 from rfl, zero_sub] at h
  rw [neg, h]
  simp only [default]
  omega

theorem asInt_nonneg_iff : 0 ≤ d.asInt ↔ 0 ≤ d.integer := by
  have := d.fractional_lt
  simp only [asInt, fractionalPartDenominator] at *
  omega

theorem exact_abs_iff :
    Exact d.abs |d.asInt| ↔ ¬ (d.integer = -2 ^ 63 ∧ d.fractional ≠ 0) := by
  have hsign := d.asInt_nonneg_iff
  obtain ⟨i, f, hi, hf⟩ := d
  simp only [abs]
  split_ifs with hpos hzero
  · rw [abs_of_nonneg (hsign.mpr hpos)]
    exact iff_of_true (fun _ => ⟨_, rfl, rfl⟩) (by simp only [ge_iff_le] at hpos; omega)
  · subst hzero
    rw [abs_of_neg (lt_of_not_ge fun h => hpos (hsign.mp h))]
    refine iff_of_true (fun hrep => ?_) (by simp)
    have hneg : InI64 (-i) := by
      rw [← representable_iff hf]
      simpa [asInt] using hrep
    exact ⟨⟨-i, 0, hneg, hf⟩, by simp [i64_eq_some hneg, new_eq_some hneg hf], by simp [asInt]⟩
  · rw [abs_of_neg (lt_of_not_ge fun h => hpos (hsign.mp h)),
      exact_carried_iff (by omega) (by simp only [asInt]; push_cast [hf.le]; ring)]
    simp only [InI64, ge_iff_le, not_le] at *
    omega

theorem round_eq_some {d : Decimal} {n : Int} (hn : IsRounded d.asInt n) (h : InI64 n) :
    d.round = some n := by
  obtain ⟨i, f, hi, hf⟩ := d
  obtain ⟨hnear, htie⟩ := hn
  have hD : fractionalPartDenominator = 10 ^ 19 := rfl
  have hn : n = if f < fractionalPartDenominator / 2 then i
      else if f = fractionalPartDenominator / 2 then i + i % 2 else i + 1 := by
    simp only [asInt, hD] at hnear htie
    obtain ⟨habs, hsign⟩ | ⟨habs, hsign⟩ :=
      abs_cases (i * ((10 ^ 19 : Nat) : Int) + f - n * (10 ^ 19 : Nat))
    all_goals
      rw [habs] at hnear htie
      split_ifs <;> omega
  subst hn
  simp only [round]
  rcases lt_trichotomy f (fractionalPartDenominator / 2) with hcmp | hcmp | hcmp
  · rw [Nat.compare_eq_lt.mpr hcmp, if_pos hcmp]
  · rw [if_neg hcmp.not_lt, if_pos hcmp] at h ⊢
    rw [Nat.compare_eq_eq.mpr hcmp]
    exact i64_eq_some h
  · rw [if_neg hcmp.not_gt, if_neg hcmp.ne'] at h ⊢
    rw [Nat.compare_eq_gt.mpr hcmp]
    exact i64_eq_some h

/-- Every result that a decimal can represent is computed, up to the integer parts of a sum, a
difference or a negation that leave 64 bits before the carry brings them back. -/
theorem arithmetic_exact_iff :
    (Exact (lhs.add rhs) (lhs.asInt + rhs.asInt) ↔
      ¬ (lhs.integer + rhs.integer = -2 ^ 63 - 1 ∧
        fractionalPartDenominator ≤ lhs.fractional + rhs.fractional)) ∧
    (Exact (lhs.sub rhs) (lhs.asInt - rhs.asInt) ↔
      ¬ (lhs.integer - rhs.integer = 2 ^ 63 ∧ lhs.fractional < rhs.fractional)) ∧
    (Exact lhs.neg (-lhs.asInt) ↔ ¬ (lhs.integer = -2 ^ 63 ∧ lhs.fractional ≠ 0)) ∧
    (Exact lhs.abs |lhs.asInt| ↔ ¬ (lhs.integer = -2 ^ 63 ∧ lhs.fractional ≠ 0)) ∧
    ∀ n, IsRounded lhs.asInt n → InI64 n → lhs.round = some n :=
  ⟨exact_add_iff lhs rhs, exact_sub_iff lhs rhs, exact_neg_iff lhs, exact_abs_iff lhs,
    fun _ => round_eq_some⟩

def nearMin : Decimal := ⟨-2 ^ 63, 5 * 10 ^ 18, by decide, by decide⟩

def minusHalf : Decimal := ⟨-1, 5 * 10 ^ 18, by decide, by decide⟩

theorem nearMin_not_exact :
    ¬ Exact (nearMin.add minusHalf) (nearMin.asInt + minusHalf.asInt) ∧
      ¬ Exact (default.sub nearMin) (default.asInt - nearMin.asInt) ∧
      ¬ Exact nearMin.neg (-nearMin.asInt) ∧ ¬ Exact nearMin.abs |nearMin.asInt| := by
  rw [exact_add_iff, exact_sub_iff, exact_neg_iff, exact_abs_iff]
  decide

end Decimal
end TypeDB.Encoding
