import TypeDB.Foundations.Numerals

/-! The ISO 8601 text of a duration. Units that are zero are left out when it is written; the
reader goes over it unit by unit and remembers whether it is past the `T` and whether it stands
behind the point of the seconds. -/

namespace TypeDB.Encoding

open List TypeDB.Numerals Nat

def nanosPerSec : Nat := 1000000000

def nanosPerMinute : Nat := 60 * nanosPerSec

def nanosPerHour : Nat := 60 * 60 * nanosPerSec

def monthsPerYear : Nat := 12

def daysPerWeek : Nat := 7

structure Duration where
  months : Fin (2 ^ 32)
  days : Fin (2 ^ 32)
  nanos : Fin (2 ^ 64)
  deriving DecidableEq

structure Segment where
  number : Nat
  symbol : Char
  numberLen : Nat

/-- Digits up to the symbol behind them; the last character is never a digit. A symbol beyond
ASCII would be cut in two. -/
def readU32 (text : Text) : Except Failure (Segment × Text) :=
  let i := min (text.takeWhile Char.isDigit).length (text.length - 1)
  if i = 0 then .error .error
  else match parseUnsigned (2 ^ 64) (text.take i), text.drop i with
    | some number, symbol :: tail =>
      if symbol.val < 128 then .ok (⟨number, symbol, i⟩, tail) else .error .panic
    | _, _ => .error .error

namespace Duration

def isEmpty (d : Duration) : Bool := d.months = 0 && d.days = 0 && d.nanos = 0

structure Reader where
  duration : Duration
  parsingTime : Bool
  previousSymbol : Option Char

variable (overflowChecks : Bool)

/-- The number is cast to the size of the sum before it is scaled. -/
def accumulate {bound : Nat} [NeZero bound] (sum : Fin bound) (number factor : Nat) :
    Except Failure (Fin bound) := orPanic do
  let product ← fit overflowChecks bound (number % bound * factor)
  fit overflowChecks bound (sum + product)

def addMonths (d : Duration) (number factor : Nat) : Except Failure Duration := do
  return { d with months := ← accumulate overflowChecks d.months number factor }

def addDays (d : Duration) (number factor : Nat) : Except Failure Duration := do
  return { d with days := ← accumulate overflowChecks d.days number factor }

def addNanos (d : Duration) (number factor : Nat) : Except Failure Duration := do
  return { d with nanos := ← accumulate overflowChecks d.nanos number factor }

def addSegment (reader : Reader) (segment : Segment) : Except Failure Duration :=
  let d := reader.duration
  match segment.symbol with
  | 'Y' => d.addMonths overflowChecks segment.number monthsPerYear
  | 'M' =>
    if reader.parsingTime then d.addNanos overflowChecks segment.number nanosPerMinute
    else d.addMonths overflowChecks segment.number 1
  | 'W' => d.addDays overflowChecks segment.number daysPerWeek
  | 'D' => d.addDays overflowChecks segment.number 1
  | 'H' => d.addNanos overflowChecks segment.number nanosPerHour
  | '.' => d.addNanos overflowChecks segment.number nanosPerSec
  | 'S' =>
    if reader.previousSymbol = some '.' then do
      d.addNanos overflowChecks segment.number
        (← orPanic (scale overflowChecks 9 segment.numberLen))
    else d.addNanos overflowChecks segment.number nanosPerSec
  | _ => .error .error

def enterTime (parsingTime : Bool) : Text → Bool × Text
  | 'T' :: text => (true, text)
  | text => (parsingTime, text)

def readSegment (reader : Reader) (text : Text) : Except Failure (Reader × Text) := do
  let (parsingTime, text) := enterTime reader.parsingTime text
  let (segment, tail) ← readU32 text
  if reader.previousSymbol = some '.' ∧ segment.symbol ≠ 'S' then throw .error
  let duration ← addSegment overflowChecks { reader with parsingTime } segment
  return (⟨duration, parsingTime, some segment.symbol⟩, tail)

/-- Every round reads a character, so there are no more rounds than characters. -/
def readSegments : Nat → Reader → Text → Except Failure Duration
  | _, reader, [] => .ok reader.duration
  | 0, _, _ :: _ => .error .panic
  | rounds + 1, reader, c :: text => do
    let (reader, tail) ← readSegment overflowChecks reader (c :: text)
    readSegments rounds reader tail

def fromStr : Text → Except Failure Duration
  | [] => .error .panic
  | 'P' :: text => readSegments overflowChecks text.length ⟨⟨0, 0, 0⟩, false, none⟩ text
  | _ => .error .error

def unit (number : Nat) (symbol : Char) : Text :=
  if 0 < number then numeral number ++ [symbol] else []

def displaySeconds (seconds nanos : Nat) : Text :=
  if 0 < seconds ∧ nanos = 0 then numeral seconds ++ ['S']
  else if 0 < nanos then numeral seconds ++ '.' :: (padded 9 nanos ++ ['S'])
  else []

def displayDate (months days : Nat) : Text :=
  unit (months / monthsPerYear) 'Y' ++ unit (months % monthsPerYear) 'M' ++ unit days 'D'

def displayTime (nanos : Nat) : Text :=
  unit (nanos / nanosPerHour) 'H' ++ unit (nanos % nanosPerHour / nanosPerMinute) 'M' ++
    displaySeconds (nanos % nanosPerMinute / nanosPerSec) (nanos % nanosPerSec)

def display (d : Duration) : Text :=
  if d.isEmpty then ['P', 'T', '0', 'S']
  else 'P' :: ((if 0 < d.months.val ∨ 0 < d.days.val then displayDate d.months d.days else []) ++
    if 0 < d.nanos.val then 'T' :: displayTime d.nanos else [])

def ofParts (months days nanos : Nat) : Duration :=
  ⟨Fin.ofNat _ months, Fin.ofNat _ days, Fin.ofNat _ nanos⟩

/-- What ends a number. -/
def IsSymbol (c : Char) : Prop := c.isDigit = false ∧ c.val < 128

instance decidableIsSymbol (c : Char) : Decidable (IsSymbol c) :=
  inferInstanceAs (Decidable (_ ∧ _))

variable {overflowChecks} {months days nanos number factor : Nat} {symbol : Char}
  {digits rest : Text} {d e result : Duration} {reader : Reader} {parsingTime : Bool}

theorem accumulate_ofNat {bound sum : Nat} [NeZero bound] (hnumber : number < bound)
    (h : sum + number * factor < bound) :
    accumulate overflowChecks (Fin.ofNat bound sum) number factor =
      .ok (Fin.ofNat bound (sum + number * factor)) := by
  have hproduct : number * factor < bound := by omega
  have hsum : sum < bound := by omega
  rw [accumulate, mod_eq_of_lt hnumber, fit_of_lt hproduct]
  simp only [bind, Option.bind, Fin.val_ofNat, mod_eq_of_lt hsum, mod_eq_of_lt hproduct]
  rw [fit_of_lt h]
  rfl

theorem addMonths_ofParts (h : months + number * factor < 2 ^ 32)
    (hnumber : number < 2 ^ 32) :
    addMonths overflowChecks (ofParts months days nanos) number factor =
      .ok (ofParts (months + number * factor) days nanos) := by
  rw [addMonths, ofParts, accumulate_ofNat hnumber h]
  rfl

theorem addDays_ofParts (h : days + number * factor < 2 ^ 32)
    (hnumber : number < 2 ^ 32) :
    addDays overflowChecks (ofParts months days nanos) number factor =
      .ok (ofParts months (days + number * factor) nanos) := by
  rw [addDays, ofParts, accumulate_ofNat hnumber h]
  rfl

theorem addNanos_ofParts (h : nanos + number * factor < 2 ^ 64)
    (hnumber : number < 2 ^ 64) :
    addNanos overflowChecks (ofParts months days nanos) number factor =
      .ok (ofParts months days (nanos + number * factor)) := by
  rw [addNanos, ofParts, accumulate_ofNat hnumber h]
  rfl

theorem readU32_append (h : IsNumeral digits) (hvalue : value digits < 2 ^ 64)
    (hsymbol : IsSymbol symbol) :
    readU32 (digits ++ symbol :: rest) = .ok (⟨value digits, symbol, digits.length⟩, rest) := by
  have hi : min ((digits ++ symbol :: rest).takeWhile Char.isDigit).length
      ((digits ++ symbol :: rest).length - 1) = digits.length := by
    rw [h.takeWhile hsymbol.1, length_append, length_cons]
    omega
  have hpos : digits.length ≠ 0 := by simpa using h.1
  simp only [readU32, hi, hpos, if_false, take_left, drop_left, h.parseUnsigned, hvalue,
    if_true, hsymbol.2]

theorem enterTime_of_isNumeral (h : IsNumeral digits) (rest : Text) :
    enterTime parsingTime (digits ++ rest) = (parsingTime, digits ++ rest) := by
  obtain ⟨c, digits, rfl, hc⟩ := h.exists_cons
  rw [cons_append, enterTime]
  simpa using ne_of_isDigit hc (by decide)

theorem readSegments_append {rounds : Nat} (h : IsNumeral digits) (hvalue : value digits < 2 ^ 64)
    (hsymbol : IsSymbol symbol) (hpoint : reader.previousSymbol = some '.' → symbol = 'S')
    (hadd : addSegment overflowChecks reader ⟨value digits, symbol, digits.length⟩ = .ok d) :
    readSegments overflowChecks (rounds + 1) reader (digits ++ symbol :: rest) =
      readSegments overflowChecks rounds ⟨d, reader.parsingTime, some symbol⟩ rest := by
  have hread : readSegment overflowChecks reader (digits ++ symbol :: rest) =
      .ok (⟨d, reader.parsingTime, some symbol⟩, rest) := by
    have hS : ¬ (reader.previousSymbol = some '.' ∧ symbol ≠ 'S') := fun hp => hp.2 (hpoint hp.1)
    rw [readSegment, enterTime_of_isNumeral h]
    simp only [readU32_append h hvalue hsymbol, bind, Except.bind, hS, if_false, pure,
      Except.pure, hadd]
  obtain ⟨c, digits, rfl⟩ := exists_cons_of_ne_nil h.1
  rw [cons_append] at hread ⊢
  rw [readSegments, hread]
  rfl

/-- With these units added and no point before it, the text is read to `result`. -/
def Reads (overflowChecks parsingTime : Bool) (d : Duration) (text : Text) (result : Duration) :
    Prop :=
  ∀ previousSymbol ≠ some '.', ∀ rounds, text.length ≤ rounds →
    readSegments overflowChecks rounds ⟨d, parsingTime, previousSymbol⟩ text = .ok result

theorem reads_nil : Reads overflowChecks parsingTime d [] d := by
  intro previousSymbol _ rounds _
  cases rounds <;> rfl

theorem Reads.segment (hsymbol : IsSymbol symbol) (hpoint : symbol ≠ '.')
    (hnumber : number < 2 ^ 64)
    (hadd : ∀ previousSymbol ≠ some '.', addSegment overflowChecks ⟨d, parsingTime, previousSymbol⟩
      ⟨number, symbol, (numeral number).length⟩ = .ok e)
    (h : Reads overflowChecks parsingTime e rest result) :
    Reads overflowChecks parsingTime d (numeral number ++ symbol :: rest) result := by
  intro previousSymbol hprevious rounds hrounds
  rw [length_append, length_cons] at hrounds
  obtain ⟨rounds, rfl⟩ : ∃ n, rounds = n + 1 := ⟨rounds - 1, by omega⟩
  rw [readSegments_append (isNumeral_numeral number) (by simpa using hnumber) hsymbol
    (fun hp => absurd hp hprevious) (by simpa using hadd previousSymbol hprevious)]
  exact h (some symbol) (by simpa using hpoint) rounds (by omega)

theorem Reads.unit (hsymbol : IsSymbol symbol) (hpoint : symbol ≠ '.') (hnumber : number < 2 ^ 64)
    (hzero : number = 0 → d = e)
    (hadd : ∀ previousSymbol ≠ some '.', addSegment overflowChecks ⟨d, parsingTime, previousSymbol⟩
      ⟨number, symbol, (numeral number).length⟩ = .ok e)
    (h : Reads overflowChecks parsingTime e rest result) :
    Reads overflowChecks parsingTime d (unit number symbol ++ rest) result := by
  rw [Duration.unit]
  split
  · rw [append_assoc]
    exact h.segment hsymbol hpoint hnumber hadd
  · rwa [hzero (by omega)]

theorem Reads.time (hdigits : IsNumeral digits)
    (h : Reads overflowChecks true d (digits ++ rest) result) :
    Reads overflowChecks false d ('T' :: (digits ++ rest)) result := by
  intro previousSymbol hprevious rounds hrounds
  have hround : readSegment overflowChecks ⟨d, false, previousSymbol⟩ ('T' :: (digits ++ rest)) =
      readSegment overflowChecks ⟨d, true, previousSymbol⟩ (digits ++ rest) := by
    rw [readSegment, readSegment, enterTime_of_isNumeral hdigits]
    rfl
  rw [length_cons] at hrounds
  obtain ⟨rounds, rfl⟩ : ∃ n, rounds = n + 1 := ⟨rounds - 1, by omega⟩
  have hread := h previousSymbol hprevious (rounds + 1) (by omega)
  obtain ⟨c, digits, rfl⟩ := exists_cons_of_ne_nil hdigits.1
  rw [cons_append, readSegments, ← cons_append, ← hround] at hread
  rw [readSegments]
  exact hread

/-- Nine more digits stand behind the point, if there is one. -/
theorem reads_displaySeconds {seconds fraction : Nat} (hfraction : fraction < nanosPerSec)
    (h : nanos + seconds * nanosPerSec + fraction < 2 ^ 64) :
    Reads overflowChecks parsingTime (ofParts months days nanos) (displaySeconds seconds fraction)
      (ofParts months days (nanos + seconds * nanosPerSec + fraction)) := by
  obtain ⟨hsum, hseconds⟩ : nanos + seconds * nanosPerSec < 2 ^ 64 ∧ seconds < 2 ^ 64 := by
    simp only [nanosPerSec] at h ⊢
    omega
  have hwhole : addNanos overflowChecks (ofParts months days nanos) seconds nanosPerSec =
      .ok (ofParts months days (nanos + seconds * nanosPerSec)) := addNanos_ofParts hsum hseconds
  rw [displaySeconds]
  split_ifs with hsecond hpoint
  · refine Reads.segment (by decide) (by decide) hseconds ?_ reads_nil
    intro previousSymbol hprevious
    rwa [addSegment, if_neg hprevious, hsecond.2, add_zero]
  · intro previousSymbol hprevious rounds hrounds
    have hnanos : addSegment overflowChecks
        ⟨ofParts months days (nanos + seconds * nanosPerSec), parsingTime, some '.'⟩
        ⟨value (padded 9 fraction), 'S', (padded 9 fraction).length⟩ =
          .ok (ofParts months days (nanos + seconds * nanosPerSec + fraction)) := by
      have hscale : orPanic (scale overflowChecks 9 9) = .ok 1 := by cases overflowChecks <;> rfl
      rw [value_padded, length_padded (by decide) hfraction, addSegment]
      simp only [hscale, bind, Except.bind, if_true]
      exact (addNanos_ofParts (by simpa using h) (by omega)).trans (by simp)
    simp only [length_append, length_cons] at hrounds
    obtain ⟨rounds, rfl⟩ : ∃ n, rounds = n + 2 := ⟨rounds - 2, by omega⟩
    rw [readSegments_append (isNumeral_numeral seconds) (by simpa using hseconds) (by decide)
        (fun hp => absurd hp hprevious) (by rw [value_numeral]; exact hwhole),
      readSegments_append (isNumeral_padded 9 fraction) (by rw [value_padded]; omega) (by decide)
        (fun _ => rfl) hnanos]
    cases rounds <;> rfl
  · obtain ⟨rfl, rfl⟩ : seconds = 0 ∧ fraction = 0 := by omega
    rw [zero_mul, add_zero, add_zero]
    exact reads_nil

theorem reads_displayTime (h : nanos < 2 ^ 64) :
    Reads overflowChecks true (ofParts months days 0) (displayTime nanos)
      (ofParts months days nanos) := by
  have hsum : 0 + nanos / nanosPerHour * nanosPerHour
      + nanos % nanosPerHour / nanosPerMinute * nanosPerMinute
      + nanos % nanosPerMinute / nanosPerSec * nanosPerSec + nanos % nanosPerSec = nanos := by
    simp only [nanosPerHour, nanosPerMinute, nanosPerSec]
    omega
  have hfraction : nanos % nanosPerSec < nanosPerSec := mod_lt _ (by decide)
  have hhours : nanos / nanosPerHour < 2 ^ 64 := (div_le_self ..).trans_lt h
  have hminutes : nanos % nanosPerHour / nanosPerMinute < 2 ^ 64 :=
    (div_le_self ..).trans_lt ((mod_le ..).trans_lt h)
  rw [displayTime, append_assoc]
  generalize nanos / nanosPerHour = hours at *
  generalize nanos % nanosPerHour / nanosPerMinute = minutes at *
  generalize nanos % nanosPerMinute / nanosPerSec = seconds at *
  generalize nanos % nanosPerSec = fraction at *
  have hhour : 0 + hours * nanosPerHour < 2 ^ 64 := by omega
  have hminute : 0 + hours * nanosPerHour + minutes * nanosPerMinute < 2 ^ 64 := by omega
  refine Reads.unit (e := ofParts months days (0 + hours * nanosPerHour)) (by decide) (by decide)
    hhours ?_ (fun _ _ => addNanos_ofParts hhour hhours) ?_
  · rintro rfl
    rw [zero_mul, add_zero]
  refine Reads.unit (e := ofParts months days
    (0 + hours * nanosPerHour + minutes * nanosPerMinute)) (by decide) (by decide)
    hminutes ?_ (fun _ _ => addNanos_ofParts hminute hminutes) ?_
  · rintro rfl
    rw [zero_mul, add_zero]
  rw [← hsum]
  exact reads_displaySeconds hfraction (by omega)

theorem reads_displayDate (hmonths : months < 2 ^ 32) (hdays : days < 2 ^ 32)
    (h : Reads overflowChecks false (ofParts months days 0) rest result) :
    Reads overflowChecks false (ofParts 0 0 0) (displayDate months days ++ rest) result := by
  have hsum : 0 + months / monthsPerYear * monthsPerYear + months % monthsPerYear * 1 = months := by
    simp only [monthsPerYear]
    omega
  have hday : 0 + days * 1 = days := by omega
  have hyears : months / monthsPerYear < 2 ^ 32 := (div_le_self ..).trans_lt hmonths
  have hmonth : months % monthsPerYear < 2 ^ 32 := (mod_le ..).trans_lt hmonths
  rw [displayDate, append_assoc, append_assoc]
  generalize months / monthsPerYear = years at *
  generalize months % monthsPerYear = remainder at *
  have hyear : 0 + years * monthsPerYear < 2 ^ 32 := by omega
  refine Reads.unit (e := ofParts (0 + years * monthsPerYear) 0 0) (by decide) (by decide)
    (by omega) ?_ (fun _ _ => addMonths_ofParts hyear hyears) ?_
  · rintro rfl
    rw [zero_mul, add_zero]
  refine Reads.unit (e := ofParts (0 + years * monthsPerYear + remainder * 1) 0 0) (by decide)
    (by decide) (by omega) ?_ (fun _ _ => addMonths_ofParts (hsum ▸ hmonths) hmonth) ?_
  · rintro rfl
    rw [zero_mul, add_zero]
  rw [hsum]
  refine Reads.unit (e := ofParts months (0 + days * 1) 0) (by decide)
    (by decide) (by omega) ?_ (fun _ _ => addDays_ofParts (hday.symm ▸ hdays) hdays) ?_
  · rintro rfl
    rfl
  rwa [hday]

theorem displayTime_eq_append (h : 0 < nanos) :
    ∃ digits tail, IsNumeral digits ∧ displayTime nanos = digits ++ tail := by
  have hunit : 0 < nanos / nanosPerHour ∨ 0 < nanos % nanosPerHour / nanosPerMinute ∨
      0 < nanos % nanosPerMinute / nanosPerSec ∨ 0 < nanos % nanosPerSec := by
    simp only [nanosPerHour, nanosPerMinute, nanosPerSec]
    omega
  rw [displayTime, unit, unit, displaySeconds]
  split_ifs
  all_goals simp only [append_assoc, nil_append]
  all_goals first
    | exact ⟨_, _, isNumeral_numeral _, rfl⟩
    | omega

theorem reads_displayRest (hnanos : nanos < 2 ^ 64) :
    Reads overflowChecks false (ofParts months days 0)
      (if 0 < nanos then 'T' :: displayTime nanos else []) (ofParts months days nanos) := by
  split_ifs with htime
  · have hread : Reads overflowChecks true (ofParts months days 0) _ _ := reads_displayTime hnanos
    obtain ⟨digits, tail, hdigits, htext⟩ := displayTime_eq_append htime
    rw [htext] at hread ⊢
    exact hread.time hdigits
  · rw [Nat.eq_zero_of_not_pos htime]
    exact reads_nil

theorem fromStr_display (overflowChecks : Bool) (d : Duration) :
    fromStr overflowChecks (display d) = .ok d := by
  have hd : ofParts d.months d.days d.nanos = d := by simp [ofParts]
  have hdate : (if 0 < d.months.val ∨ 0 < d.days.val then displayDate d.months d.days else []) =
      displayDate d.months d.days := by
    split_ifs with h
    · rfl
    · obtain ⟨hmonths, hdays⟩ : d.months.val = 0 ∧ d.days.val = 0 := by omega
      rw [hmonths, hdays]
      rfl
  have hread : Reads overflowChecks false (ofParts 0 0 0) _ (ofParts d.months d.days d.nanos) :=
    reads_displayDate d.months.isLt d.days.isLt (reads_displayRest d.nanos.isLt)
  rw [display, hdate]
  by_cases hempty : d.isEmpty
  · obtain ⟨⟨hmonths, hdays⟩, hnanos⟩ : (d.months = 0 ∧ d.days = 0) ∧ d.nanos = 0 := by
      simpa [isEmpty] using hempty
    rw [if_pos hempty, ← hd, hmonths, hdays, hnanos]
    cases overflowChecks <;> rfl
  · rw [if_neg hempty]
    rw [hd] at hread
    exact hread none (by simp) _ le_rfl

end Duration

end TypeDB.Encoding
