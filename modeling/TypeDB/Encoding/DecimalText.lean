import TypeDB.Encoding.DecimalProduct
import TypeDB.Foundations.Numerals

/-! The text of a decimal. The reader trims `dec` from the end and `-` from the start as often as
they stand there, and scales the fraction by a power of ten whose exponent is computed from the
length of the text. -/

namespace TypeDB.Encoding.Decimal

open List Option TypeDB.Numerals
variable {d : Decimal}

/-- `trim_end_matches("dec")`, on the text read backwards. -/
def trimDec : Text → Text
  | 'c' :: 'e' :: 'd' :: text => trimDec text
  | text => text

def splitPoint (text : Text) : Text × Text :=
  match text.dropWhile (· ≠ '.') with
  | [] => (text, ['0'])
  | _ :: fractional => (text.takeWhile (· ≠ '.'), fractional)

def parseI64 : Text → Option Int
  | '-' :: text => (parseDigits (2 ^ 63 + 1) text).map fun n : Nat => -(n : Int)
  | text => (parseUnsigned (2 ^ 63) text).map fun n : Nat => (n : Int)

structure Parts where
  isNegative : Bool
  integer : Text
  fractional : Text

def parts (text : Text) : Parts :=
  let text := (trimDec text.reverse).reverse
  let (integer, fractional) := splitPoint (text.dropWhile (· = '-'))
  ⟨text.head? = some '-', integer, fractional⟩

def assemble (overflowChecks isNegative : Bool) (integer : Int) (fractional length : Nat) :
    Option Decimal := do
  let factor ← scale overflowChecks 19 length
  let fractional ← fit overflowChecks (2 ^ 64) (fractional * factor)
  let d ← new integer fractional
  if isNegative then d.neg else some d

variable (overflowChecks : Bool)

def fromStr (text : Text) : Except Failure Decimal :=
  let p := parts text
  match parseI64 p.integer, parseUnsigned (2 ^ 64) p.fractional with
  | some integer, some fractional =>
    orPanic (assemble overflowChecks p.isNegative integer fractional p.fractional.length)
  | _, _ => .error .error

/-- The loop that counts zeros at the end of a number; fewer than the number has digits. -/
def trimZeros : Nat → Nat → Nat × Nat
  | 0, n => (0, n)
  | rounds + 1, n =>
    if n % 10 = 0 then
      let (tail0s, n) := trimZeros rounds (n / 10)
      (tail0s + 1, n)
    else (0, n)

def signedParts (d : Decimal) : Bool × Nat × Nat :=
  if d.integer < 0 then (true, (d.integer + 1).natAbs, fractionalPartDenominator - d.fractional)
  else (false, d.integer.natAbs, d.fractional)

def display (d : Decimal) : Text :=
  if d.fractional = 0 then
    (if d.integer < 0 then ['-'] else []) ++ numeral d.integer.natAbs ++ ['.', '0', 'd', 'e', 'c']
  else
    let (isNegative, int, frac) := d.signedParts
    let (tail0s, fractional) := trimZeros 19 frac
    (if isNegative then ['-'] else []) ++ numeral int ++ '.' :: padded (19 - tail0s) fractional ++
      ['d', 'e', 'c']

/-- The way to write a decimal number: a sign or none, digits, a point and digits or neither, and
`dec` or nothing. -/
structure Literal where
  sign : Option Char
  integer : Text
  fractional : Option Text
  suffix : Bool
  sign_mem : sign ∈ [none, some '+', some '-']
  integer_isNumeral : IsNumeral integer
  fractional_isNumeral : ∀ text ∈ fractional, IsNumeral text

variable (l : Literal)

namespace Literal

def body : Text := l.integer ++ l.fractional.elim [] ('.' :: ·)

def text : Text :=
  l.sign.toList ++ l.body ++ if l.suffix then ['d', 'e', 'c'] else []

def fraction : Text := l.fractional.getD ['0']

def length (l : Literal) : Nat := l.fraction.length

/-- The digits as one number, of which `length` stand behind the point. -/
def unscaled : Int :=
  (if l.sign = some '-' then -1 else 1) *
    (value l.integer * 10 ^ l.length + value l.fraction : Nat)

def Denotes (d : Decimal) : Prop :=
  d.asInt * 10 ^ l.length = l.unscaled * fractionalPartDenominator

end Literal

/-- The text is refused, or it is that of a number and the result is this number. -/
def ReadsWell (text : Text) : Prop :=
  fromStr overflowChecks text = .error .error ∨
    ∃ (l : Literal) (d : Decimal), l.text = text ∧ fromStr overflowChecks text = .ok d ∧ l.Denotes d

/-- At most 19 digits behind the point, or only zeros, as many as an overflow lets pass. -/
def Literal.Scalable : Prop :=
  l.length ≤ 19 ∨ value l.fraction = 0 ∧ (overflowChecks = true → l.length % 2 ^ 32 ≤ 19)

def Parses (text : Text) : Prop :=
  (parseI64 (parts text).integer).isSome ∧ (parseUnsigned (2 ^ 64) (parts text).fractional).isSome

instance decidableParses (text : Text) : Decidable (Parses text) :=
  inferInstanceAs (Decidable (_ ∧ _))

theorem trimDec_append {text digits : Text} (h : IsNumeral digits) :
    trimDec (text ++ digits).reverse = (text ++ digits).reverse := by
  obtain ⟨c, rest, hc, hdigit⟩ := h.reverse.exists_cons
  have hne := ne_of_isDigit hdigit (show 'c'.isDigit = false by decide)
  rw [reverse_append, hc, cons_append, trimDec]
  simp [hne]

theorem splitPoint_append {integer : Text} (h : '.' ∉ integer) (fractional : Option Text) :
    splitPoint (integer ++ fractional.elim [] ('.' :: ·)) = (integer, fractional.getD ['0']) := by
  have hne : ∀ c ∈ integer, decide (c ≠ '.') = true := by
    intro c hc
    refine decide_eq_true fun heq => h ?_
    rwa [← heq]
  rw [splitPoint, dropWhile_append_of_pos hne, takeWhile_append_of_pos hne]
  cases fractional with
  | none | some text => simp

namespace Literal

variable (l : Literal)

theorem fraction_isNumeral : IsNumeral l.fraction := by
  have h := l.fractional_isNumeral
  rw [fraction]
  cases hf : l.fractional with
  | none => decide
  | some text => exact h text hf

theorem trimDec_text : (trimDec l.text.reverse).reverse = l.sign.toList ++ l.body := by
  have hbody : trimDec (l.sign.toList ++ l.body).reverse = (l.sign.toList ++ l.body).reverse := by
    have h := l.fractional_isNumeral
    rw [body]
    cases hf : l.fractional with
    | none => simpa using trimDec_append l.integer_isNumeral
    | some text =>
      have hlast : trimDec (l.sign.toList ++ l.integer ++ ['.'] ++ text).reverse = _ :=
        trimDec_append (h text hf)
      simpa using hlast
  rw [text]
  cases l.suffix with
  | false => rw [if_neg (by decide), append_nil, hbody, reverse_reverse]
  | true =>
    rw [if_pos rfl, reverse_append]
    exact (congrArg List.reverse hbody).trans (reverse_reverse _)

/-- What the reader makes of a number that is written as it should be. -/
theorem parts_text :
    parts l.text = ⟨l.sign = some '-', (if l.sign = some '+' then ['+'] else []) ++ l.integer,
      l.fraction⟩ := by
  obtain ⟨c, rest, hc, hdigit⟩ := l.integer_isNumeral.exists_cons
  have hminus := ne_of_isDigit hdigit (show '-'.isDigit = false by decide)
  have hpoint := l.integer_isNumeral.not_mem (show '.'.isDigit = false by decide)
  have hsplit := splitPoint_append hpoint l.fractional
  have hsplit' : splitPoint ('+' :: l.integer ++ l.fractional.elim [] ('.' :: ·)) = _ :=
    splitPoint_append (by simp [hpoint]) l.fractional
  have hsign := l.sign_mem
  rw [parts, trimDec_text, body, fraction]
  simp only [mem_cons, not_mem_nil, or_false] at hsign
  rcases hsign with hs | hs | hs
  · simp only [hs, toList_none, nil_append, hc, cons_append, head?_cons] at *
    rw [dropWhile_cons_of_neg (by simpa using hminus), hsplit]
    simp [hminus]
  · rw [hs, toList_some, singleton_append, dropWhile_cons_of_neg (by decide),
      ← cons_append, hsplit']
    simp
  · rw [hs, toList_some, singleton_append, dropWhile_cons_of_pos (by decide)]
    simp only [hc, cons_append] at *
    rw [dropWhile_cons_of_neg (by simpa using hminus), hsplit]
    simp

theorem parseI64_integer : parseI64 ((if l.sign = some '+' then ['+'] else []) ++ l.integer) =
      if value l.integer < 2 ^ 63 then some (value l.integer : Int) else none := by
  have hparse : (parseDigits (2 ^ 63) l.integer).map (fun n : Nat => (n : Int)) =
      if value l.integer < 2 ^ 63 then some (value l.integer : Int) else none := by
    rw [l.integer_isNumeral.parseDigits]
    split <;> rfl
  rw [← hparse]
  split_ifs with hsign
  · rw [singleton_append, parseI64, parseUnsigned]
    simp
  · obtain ⟨c, rest, hc, hdigit⟩ := l.integer_isNumeral.exists_cons
    have hminus := ne_of_isDigit hdigit (show '-'.isDigit = false by decide)
    have hplus := ne_of_isDigit hdigit (show '+'.isDigit = false by decide)
    rw [nil_append, hc, parseI64, parseUnsigned]
    · simpa using hplus
    · simpa using hminus

theorem fromStr_text : fromStr overflowChecks l.text =
      if value l.integer < 2 ^ 63 ∧ value l.fraction < 2 ^ 64 then
        orPanic (assemble overflowChecks (l.sign = some '-') (value l.integer) (value l.fraction)
          l.length)
      else .error .error := by
  rw [fromStr, parts_text, parseI64_integer, l.fraction_isNumeral.parseUnsigned]
  by_cases hi : value l.integer < 2 ^ 63
  · by_cases hf : value l.fraction < 2 ^ 64
    · simp only [hi, hf, if_true, and_self, length]
    · simp only [hi, hf, if_true, if_false, and_false]
  · simp only [hi, if_false, false_and]

end Literal

theorem scale_of_le {length : Nat} (h : length ≤ 19) :
    scale overflowChecks 19 length = some (Fin.ofNat _ (10 ^ (19 - length))) := by
  have hmod : length % 2 ^ 32 = length := Nat.mod_eq_of_lt (by omega)
  have hpow : 10 ^ (19 - length) < 2 ^ 64 :=
    (Nat.pow_le_pow_right (by decide) (Nat.sub_le 19 length)).trans_lt (by decide)
  rw [scale, hmod, if_pos h, fit_of_lt hpow]

/-- From 20 digits on the exponent overflows, and the power is a multiple of 2⁶⁴. -/
theorem scale_of_lt {length : Nat} (h : 19 < length) (h' : length < 2 ^ 32 - 45) :
    scale false 19 length = some 0 := by
  have hmod : length % 2 ^ 32 = length := Nat.mod_eq_of_lt (by omega)
  have hdvd : 2 ^ 64 ∣ 10 ^ (2 ^ 32 + 19 - length) :=
    (pow_dvd_pow_of_dvd (by decide : 2 ∣ 10) 64).trans (pow_dvd_pow 10 (by omega))
  rw [scale, hmod, if_neg (by omega), if_neg (by decide), fit, if_neg (by simp)]
  congr 1
  exact Fin.ext (Nat.mod_eq_zero_of_dvd hdvd)

theorem exists_scale_iff (length : Nat) :
    (∃ factor, scale overflowChecks 19 length = some factor) ↔
      (overflowChecks = true → length % 2 ^ 32 ≤ 19) := by
  by_cases h : length % 2 ^ 32 ≤ 19
  · have heq : scale overflowChecks 19 length = scale overflowChecks 19 (length % 2 ^ 32) := by
      rw [scale, scale, Nat.mod_mod]
    rw [heq, scale_of_le overflowChecks h]
    exact iff_of_true ⟨_, rfl⟩ fun _ => h
  · rw [scale, if_neg h]
    cases overflowChecks with
    | false => simp [fit]
    | true => exact iff_of_false (by simp) fun hle => h (hle rfl)

theorem asInt_injective {d e : Decimal} (h : d.asInt = e.asInt) : d = e := by
  obtain ⟨i, f, hi, hf⟩ := d
  obtain ⟨j, g, hj, hg⟩ := e
  simp only [asInt, fractionalPartDenominator] at h hf hg
  obtain ⟨rfl, rfl⟩ : i = j ∧ f = g := by omega
  rfl

/-- The integer part and the scaled fraction, with the sign. -/
theorem assemble_eq_some_iff {overflowChecks isNegative : Bool} {integer fractional length : Nat}
    (hi : integer < 2 ^ 63) :
    assemble overflowChecks isNegative integer fractional length = some d ↔
      ∃ factor, scale overflowChecks 19 length = some factor ∧
        ∃ scaled, fit overflowChecks (2 ^ 64) (fractional * factor) = some scaled ∧
        scaled.val < fractionalPartDenominator ∧ d.asInt = (if isNegative then -1 else 1) *
          (integer * fractionalPartDenominator + scaled.val : Nat) := by
  have hin : InI64 integer := ⟨by omega, by exact_mod_cast hi⟩
  simp only [assemble, bind_eq_bind, bind_eq_some_iff]
  refine exists_congr fun factor => and_congr_right fun _ =>
    exists_congr fun scaled => and_congr_right fun _ => ?_
  by_cases hlt : scaled.val < fractionalPartDenominator
  · have heq {e : Decimal} : e = d ↔ d.asInt = e.asInt :=
      ⟨fun h => h ▸ rfl, fun h => (asInt_injective h).symm⟩
    have hunits : asInt ⟨integer, scaled, hin, hlt⟩ =
        (integer * fractionalPartDenominator + scaled.val : Nat) := by simp [asInt]
    rw [new_eq_some hin hlt]
    cases isNegative with
    | false => simpa [hlt, ← hunits] using heq
    | true =>
      have hrep : Representable (-asInt ⟨integer, scaled, hin, hlt⟩) := by
        simp only [Representable, asInt, fractionalPartDenominator] at hlt ⊢
        omega
      obtain ⟨e, he, hval⟩ := (exact_neg_iff ⟨integer, scaled, hin, hlt⟩).mpr
        (fun h => absurd h.1 (by simp only; omega)) hrep
      simp only [if_true, some.injEq, exists_eq_left', he, heq, hval, hlt, hunits, true_and,
        neg_one_mul]
  · simp [new, hlt]

theorem exists_asInt {x : Int} (h : Representable x) : ∃ d : Decimal, d.asInt = x := by
  simp only [Representable, fractionalPartDenominator] at h
  refine ⟨⟨x / 10 ^ 19, (x % 10 ^ 19).toNat, ?_, ?_⟩, ?_⟩
  · simp only [InI64]
    omega
  · simp only [fractionalPartDenominator]
    omega
  · simp only [asInt, fractionalPartDenominator]
    omega

namespace Literal

variable {l : Literal} {overflowChecks : Bool}

/-- The scaled fraction is the written one. -/
theorem denotes_iff {d : Decimal} {scaled : Nat}
    (h : d.asInt = (if decide (l.sign = some '-') = true then -1 else 1) *
      (value l.integer * fractionalPartDenominator + scaled : Nat)) :
    l.Denotes d ↔ scaled * 10 ^ l.length = value l.fraction * fractionalPartDenominator := by
  have hunits : ((value l.integer * fractionalPartDenominator + scaled : Nat) : Int) * 10 ^ l.length
      = (value l.integer * 10 ^ l.length + value l.fraction : Nat) * fractionalPartDenominator ↔
      scaled * 10 ^ l.length = value l.fraction * fractionalPartDenominator := by
    have hleft : (value l.integer * fractionalPartDenominator + scaled) * 10 ^ l.length =
        value l.integer * 10 ^ l.length * fractionalPartDenominator + scaled * 10 ^ l.length := by
      ring
    rw [← Nat.add_left_cancel_iff, ← hleft, ← add_mul]
    exact_mod_cast Iff.rfl
  rw [← hunits, Denotes, h, unscaled]
  by_cases hsign : l.sign = some '-'
  · simp only [hsign, decide_true, if_true, neg_mul, neg_inj, one_mul]
  · simp [hsign]

/-- A fraction of more than 19 digits is scaled rightly only if it is zero. -/
theorem fraction_eq_zero {factor scaled : Fin (2 ^ 64)} (hf : value l.fraction < 2 ^ 64)
    (hlength : 19 < l.length) (hfactor : scale overflowChecks 19 l.length = some factor)
    (hscaled : fit overflowChecks (2 ^ 64) (value l.fraction * factor) = some scaled)
    (h : scaled * 10 ^ l.length = value l.fraction * fractionalPartDenominator) :
    value l.fraction = 0 := by
  obtain ⟨k, hk⟩ : ∃ k, l.length = k + 1 + 19 := ⟨l.length - 20, by omega⟩
  have hvalue : scaled * 10 ^ (k + 1) = value l.fraction := by
    rw [hk, pow_add, ← mul_assoc] at h
    exact Nat.eq_of_mul_eq_mul_right (by decide : 0 < 10 ^ 19) h
  by_cases hlong : l.length < 39
  · have hmod : l.length % 2 ^ 32 = l.length := Nat.mod_eq_of_lt (by omega)
    have hchecks : overflowChecks = false := by
      have := (exists_scale_iff overflowChecks l.length).mp ⟨factor, hfactor⟩
      rw [hmod] at this
      exact Bool.eq_false_iff.mpr fun htrue => absurd (this htrue) (by omega)
    rw [hchecks, scale_of_lt hlength (by omega)] at hfactor
    cases hfactor
    rw [fit_of_lt (by simp)] at hscaled
    cases hscaled
    simpa using hvalue.symm
  · have hpow : 10 ^ 20 ≤ 10 ^ (k + 1) := Nat.pow_le_pow_right (by decide) (by omega)
    rcases Nat.eq_zero_or_pos scaled.val with hzero | hpos
    · rw [← hvalue, hzero, zero_mul]
    · have := Nat.mul_le_mul hpos hpow
      omega

theorem exists_denotes_iff (hi : value l.integer < 2 ^ 63) (hf : value l.fraction < 2 ^ 64) :
    (∃ d, fromStr overflowChecks l.text = .ok d ∧ l.Denotes d) ↔ l.Scalable overflowChecks := by
  simp only [fromStr_text, hi, hf, and_self, if_true, orPanic_eq_ok, assemble_eq_some_iff hi]
  constructor
  · rintro ⟨d, ⟨factor, hfactor, scaled, hscaled, -, hd⟩, hdenotes⟩
    rw [denotes_iff hd] at hdenotes
    rw [Scalable, or_iff_not_imp_left, not_le]
    exact fun hlength => ⟨fraction_eq_zero hf hlength hfactor hscaled hdenotes,
      (exists_scale_iff ..).mp ⟨factor, hfactor⟩⟩
  · intro h
    obtain ⟨factor, hfactor, hlt, hscaled⟩ : ∃ factor : Fin (2 ^ 64),
        scale overflowChecks 19 l.length = some factor ∧
        value l.fraction * factor < fractionalPartDenominator ∧
        value l.fraction * factor * 10 ^ l.length =
          value l.fraction * fractionalPartDenominator := by
      rcases h with hle | ⟨hzero, hchecks⟩
      · have hpow : 10 ^ (19 - l.length) < 2 ^ 64 :=
          (Nat.pow_le_pow_right (by decide) (Nat.sub_le ..)).trans_lt (by decide)
        refine ⟨_, scale_of_le overflowChecks hle, ?_⟩
        rw [Fin.val_ofNat, Nat.mod_eq_of_lt hpow, mul_assoc, ← pow_add, Nat.sub_add_cancel hle]
        refine ⟨?_, rfl⟩
        calc value l.fraction * 10 ^ (19 - l.length)
            < 10 ^ l.length * 10 ^ (19 - l.length) :=
              Nat.mul_lt_mul_of_pos_right l.fraction_isNumeral.value_lt (by positivity)
          _ = 10 ^ 19 := by rw [← pow_add, Nat.add_sub_cancel' hle]
      · obtain ⟨factor, hfactor⟩ := (exists_scale_iff overflowChecks l.length).mpr hchecks
        exact ⟨factor, hfactor, by simp [hzero]; decide, by simp [hzero]⟩
    have hfit : value l.fraction * factor < 2 ^ 64 := hlt.trans (by decide)
    have hrep : Representable ((if decide (l.sign = some '-') = true then -1 else 1) *
        (value l.integer * fractionalPartDenominator + value l.fraction * factor : Nat)) := by
      simp only [Representable, fractionalPartDenominator] at hlt ⊢
      split <;> omega
    obtain ⟨d, hd⟩ := exists_asInt hrep
    have hval : (Fin.ofNat (2 ^ 64) (value l.fraction * factor)).val = value l.fraction * factor :=
      Nat.mod_eq_of_lt hfit
    exact ⟨d, ⟨factor, hfactor, _, fit_of_lt hfit, hval.symm ▸ hlt, hval.symm ▸ hd⟩,
      (denotes_iff hd).mpr hscaled⟩

theorem Denotes.unique {d e : Decimal} (hd : l.Denotes d) (he : l.Denotes e) : d = e :=
  asInt_injective (mul_right_cancel₀ (by positivity) (hd.trans he.symm))

end Literal

theorem fromStr_of_parses {overflowChecks : Bool} {text : Text} :
    fromStr overflowChecks text = .error .error ↔ ¬ Parses text := by
  rw [fromStr, Parses]
  cases parseI64 (parts text).integer with
  | none => simp
  | some integer =>
    cases parseUnsigned (2 ^ 64) (parts text).fractional with
    | none => simp
    | some fractional => simp [orPanic_ne_error]

theorem Literal.parses_text :
    Parses l.text ↔ value l.integer < 2 ^ 63 ∧ value l.fraction < 2 ^ 64 := by
  rw [Parses, parts_text, parseI64_integer, l.fraction_isNumeral.parseUnsigned]
  simp only [isSome_ite]

open Literal

theorem readsWell_iff (text : Text) : ReadsWell overflowChecks text ↔
      (Parses text → ∃ l : Literal, l.text = text ∧ l.Scalable overflowChecks) := by
  rw [ReadsWell, fromStr_of_parses, ← imp_iff_not_or]
  refine forall_congr' fun hparses => exists_congr fun l => ?_
  rw [exists_and_left]
  refine and_congr_right ?_
  rintro rfl
  obtain ⟨hi, hf⟩ := l.parses_text.mp hparses
  exact exists_denotes_iff hi hf

theorem trimZeros_spec (rounds n : Nat) :
    n = (trimZeros rounds n).2 * 10 ^ (trimZeros rounds n).1 := by
  induction rounds generalizing n with
  | zero => simp [trimZeros]
  | succ rounds ih =>
    rw [trimZeros]
    split
    · rw [pow_succ, ← mul_assoc, ← ih (n / 10)]
      omega
    · simp

def displayLiteral (isNegative : Bool) (int width fractional : Nat) : Literal where
  sign := if isNegative then some '-' else none
  integer := numeral int
  fractional := some (padded width fractional)
  suffix := true
  sign_mem := by cases isNegative <;> simp
  integer_isNumeral := isNumeral_numeral int
  fractional_isNumeral := by
    rintro text ⟨⟩
    exact isNumeral_padded width fractional

theorem displayLiteral_text (isNegative : Bool) (int width fractional : Nat) :
    (displayLiteral isNegative int width fractional).text =
      (if isNegative then ['-'] else []) ++ numeral int ++ '.' :: padded width fractional ++
        ['d', 'e', 'c'] := by
  cases isNegative <;> simp [displayLiteral, text, body]

theorem displayLiteral_denotes {isNegative : Bool} {int tail0s fractional : Nat}
    (htail : tail0s < 19) (hfractional : fractional < 10 ^ (19 - tail0s))
    (h : d.asInt = (if isNegative then -1 else 1) *
      (int * fractionalPartDenominator + fractional * 10 ^ tail0s : Nat)) :
    (displayLiteral isNegative int (19 - tail0s) fractional).Denotes d ∧
      (displayLiteral isNegative int (19 - tail0s) fractional).length ≤ 19 := by
  have hlength : (displayLiteral isNegative int (19 - tail0s) fractional).length = 19 - tail0s :=
    length_padded (by omega) hfractional
  have hunits : d.asInt =
      (if decide ((displayLiteral isNegative int (19 - tail0s) fractional).sign =
      some '-') = true then -1 else 1) * (value (numeral int) * fractionalPartDenominator +
        fractional * 10 ^ tail0s : Nat) := by
    rw [value_numeral, h]
    cases isNegative <;> rfl
  refine ⟨(denotes_iff hunits).mpr ?_, by omega⟩
  rw [hlength, mul_assoc, ← pow_add, Nat.add_sub_cancel' htail.le]
  exact congrArg (· * 10 ^ 19) (value_padded ..).symm

theorem eq_minimum_iff (d : Decimal) : d = minimum ↔ d.integer = -2 ^ 63 ∧ d.fractional = 0 := by
  obtain ⟨i, f, hi, hf⟩ := d
  simp [minimum]

theorem signedParts_spec (hzero : d.fractional ≠ 0) :
    d.asInt = (if d.signedParts.1 then -1 else 1) *
        (d.signedParts.2.1 * fractionalPartDenominator + d.signedParts.2.2 : Nat) ∧
      d.signedParts.2.1 < 2 ^ 63 ∧ 0 < d.signedParts.2.2 ∧ d.signedParts.2.2 < 10 ^ 19 := by
  have hi := d.integer_inI64
  have hf := d.fractional_lt
  simp only [InI64, fractionalPartDenominator] at hi hf
  by_cases hneg : d.integer < 0
  · simp only [signedParts, asInt, fractionalPartDenominator, hneg, if_true]
    omega
  · simp only [signedParts, asInt, fractionalPartDenominator, hneg, if_false, Bool.false_eq_true]
    omega

/-- The magnitude is written behind the sign. -/
theorem display_eq_text (d : Decimal) :
    ∃ l : Literal, l.text = display d ∧ l.Denotes d ∧ l.length ≤ 19 ∧
      (value l.integer < 2 ^ 63 ↔ d ≠ minimum) := by
  have hi := d.integer_inI64
  have hf := d.fractional_lt
  rw [Ne, eq_minimum_iff]
  simp only [InI64, fractionalPartDenominator] at hi hf
  by_cases hzero : d.fractional = 0
  · refine ⟨displayLiteral (d.integer < 0) d.integer.natAbs (19 - 18) 0, ?_, ?_⟩
    · rw [displayLiteral_text, display, if_pos hzero]
      simp only [decide_eq_true_eq, append_assoc]
      rfl
    · refine and_assoc.mp ⟨displayLiteral_denotes (by decide) (by decide) ?_, ?_⟩
      · simp only [asInt, hzero, decide_eq_true_eq, fractionalPartDenominator]
        split <;> omega
      · rw [displayLiteral, value_numeral]
        omega
  · obtain ⟨hunits, hint, hpos, hlt⟩ := d.signedParts_spec hzero
    rw [display, if_neg hzero]
    generalize d.signedParts = p at *
    obtain ⟨isNegative, int, frac⟩ := p
    have hfrac := trimZeros_spec 19 frac
    simp only at *
    generalize trimZeros 19 frac = q at *
    obtain ⟨tail0s, fractional⟩ := q
    simp only at *
    have hone : 1 ≤ fractional := by
      rcases Nat.eq_zero_or_pos fractional with rfl | h
      · omega
      · exact h
    have htail : tail0s < 19 := by
      have := Nat.mul_le_mul_right (10 ^ tail0s) hone
      exact (Nat.pow_lt_pow_iff_right (by decide)).mp (by omega : 10 ^ tail0s < 10 ^ 19)
    have hfractional : fractional < 10 ^ (19 - tail0s) := by
      have : 10 ^ (19 - tail0s) * 10 ^ tail0s = 10 ^ 19 := by
        rw [← pow_add, Nat.sub_add_cancel htail.le]
      exact lt_of_mul_lt_mul_right (by omega : fractional * 10 ^ tail0s < _) (by positivity)
    refine ⟨displayLiteral isNegative int (19 - tail0s) fractional, displayLiteral_text .., ?_⟩
    refine and_assoc.mp ⟨displayLiteral_denotes htail hfractional (hfrac ▸ hunits), ?_⟩
    rw [displayLiteral, value_numeral]
    exact iff_of_true hint fun h => hzero h.2

theorem fromStr_display_eq_iff (d : Decimal) :
    fromStr overflowChecks (display d) = .ok d ↔ d ≠ minimum := by
  obtain ⟨l, htext, hdenotes, hlength, hminimum⟩ := d.display_eq_text
  have hf : value l.fraction < 2 ^ 64 := l.fraction_isNumeral.value_lt.trans_le
    ((Nat.pow_le_pow_right (by decide) hlength).trans (by decide))
  rw [← htext, ← hminimum]
  constructor
  · intro hok
    by_contra hi
    rw [fromStr_text, if_neg fun h => hi h.1] at hok
    cases hok
  · intro hi
    obtain ⟨e, he, hden⟩ := (exists_denotes_iff hi hf).mpr (Or.inl hlength)
    rwa [hdenotes.unique hden]

/-- The text of every decimal but the least is read back; a text is refused, or read as the number
it is, unless its parts parse and it is no number or its fraction is too long. -/
theorem fromStr_display_iff :
    (∀ d, fromStr overflowChecks (display d) = .ok d ↔ d ≠ minimum) ∧
      ∀ text, ReadsWell overflowChecks text ↔
        (Parses text → ∃ l : Literal, l.text = text ∧ l.Scalable overflowChecks) :=
  ⟨fromStr_display_eq_iff overflowChecks, readsWell_iff overflowChecks⟩

/-- The least decimal is not read back; 20 digits behind the point panic with overflow checks; a
sign behind the point is accepted. -/
theorem minimum_not_read :
    (∀ overflowChecks, fromStr overflowChecks (display minimum) ≠ .ok minimum) ∧
      fromStr true ('0' :: '.' :: padded 20 1) = .error .panic ∧
      ∀ overflowChecks, ¬ ReadsWell overflowChecks ['1', '.', '+', '5'] := by
  refine ⟨fun overflowChecks h => ?_, rfl, fun overflowChecks h => ?_⟩
  · exact (fromStr_display_eq_iff overflowChecks minimum).mp h rfl
  · obtain ⟨l, htext, -⟩ := (readsWell_iff overflowChecks _).mp h (by decide)
    have hfraction : l.fraction = ['+', '5'] := by
      have := congrArg Parts.fractional l.parts_text
      rw [htext] at this
      exact this.symm
    exact absurd l.fraction_isNumeral (by rw [hfraction]; decide)

end TypeDB.Encoding.Decimal
