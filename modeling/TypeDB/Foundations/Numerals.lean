import Mathlib.Data.Nat.Digits.Defs
import TypeDB.Foundations.Bytes

/-! Decimal numerals as text: what a reader of unsigned numbers of bounded size accepts, that it
reads back what was written, with or without leading zeros, and arithmetic on such numbers that
panics or wraps on overflow. -/

namespace TypeDB.Numerals
open List Nat
variable {text : Text}

abbrev Text := List Char

/-- How a reader of text ends if it does not return. -/
inductive Failure
  | error
  | panic
  deriving DecidableEq, Repr

/-- What is unwrapped to nothing panics. -/
def orPanic {α : Type} (x : Option α) : Except Failure α := x.elim (.error .panic) .ok

theorem orPanic_eq_ok {α : Type} {x : Option α} {a : α} : orPanic x = .ok a ↔ x = some a := by
  cases x with
  | none | some a => simp [orPanic]

theorem orPanic_ne_error {α : Type} (x : Option α) : orPanic x ≠ .error .error := by
  cases x with
  | none | some a => simp [orPanic]

/-- The result of an operation on unsigned numbers below `bound`, unless it panics. -/
def fit (overflowChecks : Bool) (bound : Nat) [NeZero bound] (x : Nat) : Option (Fin bound) :=
  if overflowChecks ∧ bound ≤ x then none else some (Fin.ofNat bound x)

theorem fit_of_lt {overflowChecks : Bool} {bound x : Nat} [NeZero bound] (h : x < bound) :
    fit overflowChecks bound x = some (Fin.ofNat bound x) :=
  if_neg fun hle => absurd h (not_lt.mpr hle.2)

/-- `10u64.pow(digits - length as u32)`. -/
def scale (overflowChecks : Bool) (digits length : Nat) : Option (Fin (2 ^ 64)) :=
  if length % 2 ^ 32 ≤ digits then fit overflowChecks (2 ^ 64) (10 ^ (digits - length % 2 ^ 32))
  else if overflowChecks then none
  else fit false (2 ^ 64) (10 ^ (2 ^ 32 + digits - length % 2 ^ 32))

def IsNumeral (text : Text) : Prop := text ≠ [] ∧ ∀ c ∈ text, c.isDigit = true

instance decidableIsNumeral (text : Text) : Decidable (IsNumeral text) :=
  @instDecidableAnd _ _ _ (List.decidableBAll (fun c => c.isDigit = true) text)

def value (text : Text) : Nat := Nat.ofDigitChars 10 text 0

def parseDigits (bound : Nat) (text : Text) : Option Nat :=
  if IsNumeral text ∧ value text < bound then some (value text) else none

/-- One `+` may stand before the digits. -/
def parseUnsigned (bound : Nat) : Text → Option Nat
  | '+' :: text => parseDigits bound text
  | text => parseDigits bound text

def numeral (n : Nat) : Text := Nat.toDigits 10 n

def padded (width n : Nat) : Text := List.replicate (width - (numeral n).length) '0' ++ numeral n

theorem isNumeral_numeral (n : Nat) : IsNumeral (numeral n) :=
  ⟨toDigits_ne_nil, fun _ h => isDigit_of_mem_toDigits (by decide) (by decide) h⟩

theorem isNumeral_padded (width n : Nat) : IsNumeral (padded width n) := by
  refine ⟨by simp [padded, (isNumeral_numeral n).1], ?_⟩
  intro c h
  rcases mem_append.mp h with h | h
  · rw [eq_of_mem_replicate h]
    decide
  · exact (isNumeral_numeral n).2 c h

@[simp] theorem value_numeral (n : Nat) : value (numeral n) = n :=
  ofDigitChars_toDigits (by decide) (by decide)

@[simp] theorem value_padded (width n : Nat) : value (padded width n) = n := by
  rw [value, padded, ofDigitChars_append, ofDigitChars_replicate_zero, mul_zero]
  exact value_numeral n

theorem length_padded {width n : Nat} (hwidth : 0 < width) (h : n < 10 ^ width) :
    (padded width n).length = width := by
  have hlength := (length_toDigits_le_iff (by decide) hwidth).mpr h
  rw [padded, length_append, length_replicate, numeral]
  omega

theorem IsNumeral.exists_cons (h : IsNumeral text) :
    ∃ c rest, text = c :: rest ∧ c.isDigit = true := by
  obtain ⟨c, rest, rfl⟩ := exists_cons_of_ne_nil h.1
  exact ⟨c, rest, rfl, h.2 c (mem_cons_self ..)⟩

theorem IsNumeral.reverse (h : IsNumeral text) : IsNumeral text.reverse :=
  ⟨reverse_ne_nil_iff.mpr h.1, fun c hc => h.2 c (mem_reverse.mp hc)⟩

theorem ne_of_isDigit {c d : Char} (hc : c.isDigit = true) (hd : d.isDigit = false) : c ≠ d := by
  rintro rfl
  simp [hc] at hd

theorem IsNumeral.not_mem {c : Char} (h : IsNumeral text) (hc : c.isDigit = false) : c ∉ text :=
  fun hmem => ne_of_isDigit (h.2 c hmem) hc rfl

theorem IsNumeral.value_lt (h : IsNumeral text) : value text < 10 ^ text.length := by
  have hdigits := h.2
  clear h
  induction text with
  | nil => decide
  | cons c rest ih =>
    have hc := hdigits c (mem_cons_self ..)
    have hrest := ih fun x hx => hdigits x (mem_cons_of_mem _ hx)
    have hnine : c.toNat - '0'.toNat ≤ 9 := by
      simp only [Char.isDigit, Bool.and_eq_true, decide_eq_true_eq] at hc
      have := UInt32.le_iff_toNat_le.mp hc.2
      exact sub_le_of_le_add this
    rw [value, ofDigitChars_cons, ofDigitChars_eq_ofDigitChars_zero, mul_zero, zero_add,
      length_cons, pow_succ]
    rw [value] at hrest
    have := mul_le_mul_left (10 ^ rest.length) hnine
    omega

theorem IsNumeral.parseDigits {bound : Nat} (h : IsNumeral text) :
    parseDigits bound text = if value text < bound then some (value text) else none := by
  simp [Numerals.parseDigits, h]

theorem IsNumeral.parseUnsigned {bound : Nat} (h : IsNumeral text) :
    parseUnsigned bound text = if value text < bound then some (value text) else none := by
  rw [← h.parseDigits]
  obtain ⟨c, rest, rfl, hc⟩ := h.exists_cons
  rw [Numerals.parseUnsigned]
  simpa using ne_of_isDigit hc (by decide)

/-- The digits of a numeral end where something else begins. -/
theorem IsNumeral.takeWhile {text rest : Text} {c : Char} (h : IsNumeral text)
    (hc : c.isDigit = false) : (text ++ c :: rest).takeWhile Char.isDigit = text := by
  rw [takeWhile_append_of_pos h.2, takeWhile_cons_of_neg (by simp [hc]), append_nil]

end TypeDB.Numerals
