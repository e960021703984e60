import TypeDB.Encoding.AttributeIds
import TypeDB.Encoding.Decimal
import TypeDB.Foundations.Reading

/-! Scalar values, their bytes of fixed length, and when two of them are equal. Dates and times are
those of chrono: a date is its number of days, a time the seconds and nanoseconds of its timestamp,
where a leap second is 10⁹ nanoseconds or more. The functions of chrono that are called are known
by what is documented of them. -/

namespace TypeDB.Encoding
open ByteString List

/-- `(value ^ MIN).to_be_bytes()` for a number of `w` bytes: the sign bit is inverted, which adds
half the range. -/
def encodeSigned (w : Nat) (value : Int) : Bytes := encodeBE w (value + 128 * 256 ^ (w - 1)).toNat

def decodeSigned (w : Nat) (bytes : Bytes) : Int := decodeBE bytes - 128 * 256 ^ (w - 1)

@[simp] theorem length_encodeSigned (w : Nat) (value : Int) :
    (encodeSigned w value).length = w := by
  simp [encodeSigned]

@[ext] structure Integer where
  value : Int
  inI64 : InI64 value

instance : DecidableEq Integer := fun a b => decidable_of_iff (a.value = b.value) Integer.ext_iff.symm

def Integer.ofInt (value : Int) : Option Integer :=
  if h : InI64 value then some ⟨value, h⟩ else none

/-- The bits of an `f64`. -/
structure Double where
  bits : Nat
  bits_lt : bits < 2 ^ 64
  deriving DecidableEq

namespace Double

def isSignPositive (double : Double) : Bool := decide (double.bits < 2 ^ 63)

def magnitude (double : Double) : Nat := double.bits % 2 ^ 63

def isNaN (double : Double) : Bool := decide (0x7FF0000000000000 < double.magnitude)

def eq (a b : Double) : Bool :=
  !a.isNaN && !b.isNaN && (decide (a = b) || decide (a.magnitude = 0 ∧ b.magnitude = 0))

def encodedBits (double : Double) : Nat :=
  if double.isSignPositive then double.bits + 2 ^ 63 else 2 ^ 64 - 1 - double.bits

def ofEncodedBits (encodedBits : Nat) : Option Double :=
  if encodedBits > 2 ^ 63 - 1 then
    if h : encodedBits - 2 ^ 63 < 2 ^ 64 then some ⟨encodedBits - 2 ^ 63, h⟩ else none
  else some ⟨2 ^ 64 - 1 - encodedBits, by omega⟩

end Double

def IsNumDaysFromCe (days : Int) : Prop := -95746129 ≤ days ∧ days ≤ 95745399

instance (days : Int) : Decidable (IsNumDaysFromCe days) := inferInstanceAs (Decidable (_ ∧ _))

structure NaiveDate where
  numDaysFromCe : Int
  inRange : IsNumDaysFromCe numDaysFromCe
  deriving DecidableEq

structure NaiveDateTime where
  timestamp : Int
  nanos : Nat
  inRange : IsNumDaysFromCe (timestamp / 86400 + 719163)
  nanos_lt : nanos < 2 * 10 ^ 9
  deriving DecidableEq

/-- `DateTime::from_timestamp` takes a leap second at the end of a minute only. -/
def isTimestamp (secs : Int) (nanos : Nat) : Bool := decide (nanos < 10 ^ 9 ∨ secs % 60 = 59)

def numTzs : Nat := 596

structure FixedOffset where
  localMinusUtc : Int
  inRange : -86400 < localMinusUtc ∧ localMinusUtc < 86400
  deriving DecidableEq

/-- What is called of chrono: constructors that return nothing for what is out of range, and the
words that hashes of dates and times write. -/
structure Chrono where
  fromNumDaysFromCeOpt : Int → Option NaiveDate
  fromTimestamp : Int → Nat → Option NaiveDateTime
  eastOpt : Int → Option FixedOffset
  hashDate : NaiveDate → List Int
  hashDateTime : NaiveDateTime → List Int
  fromNumDaysFromCeOpt_eq_some : ∀ {days d},
    fromNumDaysFromCeOpt days = some d ↔ d.numDaysFromCe = days
  fromTimestamp_eq_some : ∀ {secs nanos t}, fromTimestamp secs nanos = some t ↔
    (t.timestamp = secs ∧ t.nanos = nanos) ∧ isTimestamp secs nanos = true
  eastOpt_eq_some : ∀ {secs offset}, eastOpt secs = some offset ↔ offset.localMinusUtc = secs

/-- The documented behaviour can be had. -/
def Chrono.standard : Chrono where
  fromNumDaysFromCeOpt days := if h : IsNumDaysFromCe days then some ⟨days, h⟩ else none
  fromTimestamp secs nanos :=
    if h : (IsNumDaysFromCe (secs / 86400 + 719163) ∧ nanos < 2 * 10 ^ 9) ∧
        isTimestamp secs nanos = true then some ⟨secs, nanos, h.1.1, h.1.2⟩ else none
  eastOpt secs := if h : -86400 < secs ∧ secs < 86400 then some ⟨secs, h⟩ else none
  hashDate d := [d.numDaysFromCe]
  hashDateTime t := [t.timestamp / 86400, t.timestamp % 86400, t.nanos]
  fromNumDaysFromCeOpt_eq_some {days d} := by
    obtain ⟨_, hd⟩ := d
    constructor
    · intro h
      split_ifs at h
      cases h
      rfl
    · rintro rfl
      exact dif_pos hd
  fromTimestamp_eq_some {secs nanos t} := by
    obtain ⟨_, _, hrange, hnanos⟩ := t
    constructor
    · intro h
      split_ifs at h with hok
      cases h
      exact ⟨⟨rfl, rfl⟩, hok.2⟩
    · rintro ⟨⟨rfl, rfl⟩, hleap⟩
      exact dif_pos ⟨⟨hrange, hnanos⟩, hleap⟩
  eastOpt_eq_some {secs offset} := by
    obtain ⟨_, hrange⟩ := offset
    constructor
    · intro h
      split_ifs at h
      cases h
      rfl
    · rintro rfl
      exact dif_pos hrange

/-- A zone of the IANA database is its number in `tz_to_number!`. -/
inductive TimeZone
  | iana (tz : Fin numTzs)
  | fixed (offset : FixedOffset)
  deriving DecidableEq

def TimeZone.encode : TimeZone → Bytes
  | .iana tz => encodeBE 4 tz.val
  | .fixed offset => encodeSigned 4 offset.localMinusUtc

def TimeZone.decode (chrono : Chrono) (encoded : Bytes) : Option TimeZone :=
  if h : decodeBE encoded < numTzs then some (.iana ⟨decodeBE encoded, h⟩)
  else (chrono.eastOpt (decodeSigned 4 encoded)).map .fixed

inductive Scalar
  | boolean (value : Bool)
  | integer (value : Integer)
  | double (value : Double)
  | decimal (value : Decimal)
  | date (value : NaiveDate)
  | dateTime (value : NaiveDateTime)
  | dateTimeTZ (utc : NaiveDateTime) (timezone : TimeZone)
  | duration (months days : Fin (2 ^ 32)) (nanos : Fin (2 ^ 64))
  deriving DecidableEq

inductive Category
  | boolean
  | integer
  | double
  | decimal
  | date
  | dateTime
  | dateTimeTZ
  | duration
  | hashed (category : ValueTypeCategory)
  deriving DecidableEq

def Category.toByte : Category → Byte
  | .boolean => 0
  | .integer => 1
  | .double => 2
  | .decimal => 3
  | .date => 4
  | .dateTime => 5
  | .dateTimeTZ => 6
  | .duration => 7
  | .hashed category => category.toByte

/-- `from_bytes` panics on any other byte. -/
def Category.ofByte (byte : Byte) : Option Category :=
  [.boolean, .integer, .double, .decimal, .date, .dateTime, .dateTimeTZ, .duration,
    .hashed .string, .hashed .struct].find? fun category => decide (category.toByte = byte)

theorem Category.ofByte_toByte (category : Category) : ofByte category.toByte = some category := by
  cases category with
  | hashed category => cases category <;> decide
  | _ => decide

def Category.isShort : Category → Bool
  | .boolean | .integer | .double | .date | .hashed .struct => true
  | .decimal | .dateTime | .dateTimeTZ | .duration | .hashed .string => false

def Category.encodedLength (category : Category) : Nat := if category.isShort then 8 else 17

namespace Scalar

def category : Scalar → Category
  | .boolean _ => .boolean
  | .integer _ => .integer
  | .double _ => .double
  | .decimal _ => .decimal
  | .date _ => .date
  | .dateTime _ => .dateTime
  | .dateTimeTZ _ _ => .dateTimeTZ
  | .duration _ _ _ => .duration

/-- `==` on scalars. Times with a zone are compared as instants. -/
def eq : Scalar → Scalar → Bool
  | .double a, .double b => a.eq b
  | .dateTimeTZ a _, .dateTimeTZ b _ => decide (a = b)
  | a, b => decide (a = b)

/-- The bytes that hold something; an array of the encoded length is filled up with zeros. -/
def significantBytes : Scalar → Bytes
  | .boolean value => [if value then 1 else 0]
  | .integer i => encodeSigned 8 i.value
  | .double d => encodeBE 8 d.encodedBits
  | .decimal d => encodeSigned 8 d.integer ++ encodeBE 8 d.fractional
  | .date d => encodeSigned 4 d.numDaysFromCe
  | .dateTime t => encodeSigned 8 t.timestamp ++ encodeBE 4 t.nanos
  | .dateTimeTZ t tz => encodeSigned 8 t.timestamp ++ encodeBE 4 t.nanos ++ tz.encode
  | .duration months days nanos =>
    encodeBE 4 months.val ++ encodeBE 4 days.val ++ encodeBE 8 nanos.val

def encodeBytes (s : Scalar) : Bytes :=
  s.significantBytes ++ List.replicate (s.category.encodedLength - s.significantBytes.length) 0

/-- The readers `as_bool`, `as_i64` and so on, at an array of the encoded length. -/
def decodeBytes (chrono : Chrono) (bytes : Bytes) : Category → Option Scalar
  | .boolean => some (.boolean (decide (bytes.head? ≠ some 0)))
  | .integer => (Integer.ofInt (decodeSigned 8 (bytes.take 8))).map .integer
  | .double => (Double.ofEncodedBits (decodeBE (bytes.take 8))).map .double
  | .decimal =>
    (Decimal.new (decodeSigned 8 (bytes.take 8)) (decodeBE ((bytes.drop 8).take 8))).map .decimal
  | .date => (chrono.fromNumDaysFromCeOpt (decodeSigned 4 (bytes.take 4))).map .date
  | .dateTime => (chrono.fromTimestamp (decodeSigned 8 (bytes.take 8))
      (decodeBE ((bytes.drop 8).take 4))).map .dateTime
  | .dateTimeTZ => do
    let utc ← chrono.fromTimestamp (decodeSigned 8 (bytes.take 8))
      (decodeBE ((bytes.drop 8).take 4))
    let tz ← TimeZone.decode chrono ((bytes.drop 12).take 4)
    some (.dateTimeTZ utc tz)
  | .duration => some (.duration (Fin.ofNat _ (decodeBE (bytes.take 4)))
      (Fin.ofNat _ (decodeBE ((bytes.drop 4).take 4)))
      (Fin.ofNat _ (decodeBE ((bytes.drop 8).take 8))))
  | .hashed _ => none

/-- Leap seconds are read back only at the end of a minute. -/
def decodable : Scalar → Bool
  | .dateTime t => isTimestamp t.timestamp t.nanos
  | .dateTimeTZ t _ => isTimestamp t.timestamp t.nanos
  | _ => true

/-- No other scalar is equal to it, and it is equal to itself. -/
def canonical : Scalar → Bool
  | .double d => !d.isNaN && decide (d.magnitude ≠ 0)
  | .dateTimeTZ _ _ => false
  | _ => true

end Scalar

section RoundTrip

theorem decodeSigned_encodeSigned {w : Nat} {value : Int}
    (hlo : -(128 * 256 ^ (w - 1) : Int) ≤ value) (hhi : value < 128 * 256 ^ (w - 1)) (hw : 0 < w) :
    decodeSigned w (encodeSigned w value) = value := by
  have hpow : (256 : Int) ^ w = 256 * 256 ^ (w - 1) := by
    rw [← pow_succ', Nat.sub_add_cancel hw]
  have hlt : (value + 128 * 256 ^ (w - 1)).toNat < 256 ^ w := by
    zify
    rw [Int.toNat_of_nonneg (by linarith), hpow]
    linarith
  rw [decodeSigned, encodeSigned, decodeBE_encodeBE hlt, Int.toNat_of_nonneg (by linarith)]
  ring

theorem decodeSigned_encodeSigned_eight {value : Int} (h : InI64 value) :
    decodeSigned 8 (encodeSigned 8 value) = value := by
  obtain ⟨hlo, hhi⟩ := h
  exact decodeSigned_encodeSigned (by norm_num at *; omega) (by norm_num at *; omega) (by decide)

theorem decodeSigned_encodeSigned_four {value : Int} (hlo : -2 ^ 31 ≤ value)
    (hhi : value < 2 ^ 31) : decodeSigned 4 (encodeSigned 4 value) = value :=
  decodeSigned_encodeSigned (by norm_num at *; omega) (by norm_num at *; omega) (by decide)

theorem Double.encodedBits_lt (d : Double) : d.encodedBits < 256 ^ 8 := by
  have := d.bits_lt
  unfold encodedBits isSignPositive
  split_ifs with h <;> norm_num at * <;> omega

theorem Double.ofEncodedBits_encodedBits (d : Double) : ofEncodedBits d.encodedBits = some d := by
  obtain ⟨bits, hlt⟩ := d
  unfold ofEncodedBits encodedBits isSignPositive
  by_cases h : bits < 2 ^ 63
  · have hpos : bits + 2 ^ 63 > 2 ^ 63 - 1 := by omega
    simp only [h, decide_true, if_true, if_pos hpos, Nat.add_sub_cancel, dif_pos hlt]
  · have hneg : ¬ 2 ^ 64 - 1 - bits > 2 ^ 63 - 1 := by omega
    simp only [h, decide_false, Bool.false_eq_true, if_false, if_neg hneg, Option.some.injEq,
      Double.mk.injEq]
    omega

theorem NaiveDateTime.timestamp_inI64 (t : NaiveDateTime) : InI64 t.timestamp := by
  obtain ⟨h₁, h₂⟩ := t.inRange
  constructor <;> omega

theorem Chrono.fromTimestamp_self (chrono : Chrono) (t : NaiveDateTime) :
    chrono.fromTimestamp t.timestamp t.nanos =
      if isTimestamp t.timestamp t.nanos then some t else none := by
  split_ifs with h
  · exact chrono.fromTimestamp_eq_some.mpr ⟨⟨rfl, rfl⟩, h⟩
  · refine Option.eq_none_iff_forall_ne_some.mpr fun u hu => ?_
    exact h (chrono.fromTimestamp_eq_some.mp hu).2

theorem TimeZone.length_encode (tz : TimeZone) : tz.encode.length = 4 := by
  cases tz <;> simp [TimeZone.encode]

theorem TimeZone.decode_encode (chrono : Chrono) (tz : TimeZone) :
    decode chrono tz.encode = some tz := by
  cases tz with
  | iana tz =>
    have hlt : tz.val < 256 ^ 4 := tz.isLt.trans (by decide)
    simp [decode, encode, decodeBE_encodeBE hlt]
  | fixed offset =>
    obtain ⟨hlo, hhi⟩ := offset.inRange
    have hsigned : decodeSigned 4 (encodeSigned 4 offset.localMinusUtc) = offset.localMinusUtc :=
      decodeSigned_encodeSigned_four (by omega) (by omega)
    -- the encoded offsets lie around the middle of the range, past the numbers of the zones
    have hnot : ¬ decodeBE (encodeSigned 4 offset.localMinusUtc) < numTzs := by
      have := hsigned
      unfold decodeSigned at this
      norm_num [numTzs] at *
      omega
    rw [encode, decode, dif_neg hnot, hsigned, chrono.eastOpt_eq_some.mpr rfl]
    rfl

namespace Scalar

theorem length_encodeBytes (s : Scalar) : s.encodeBytes.length = s.category.encodedLength := by
  have hle : s.significantBytes.length ≤ s.category.encodedLength := by
    cases s <;>
      simp [significantBytes, category, Category.encodedLength, Category.isShort,
        TimeZone.length_encode]
  simp [encodeBytes, hle]

theorem take_drop_append {a b rest : Bytes} {m n : Nat} (ha : a.length = m) (hb : b.length = n) :
    ((a ++ b ++ rest).drop m).take n = b := by
  rw [append_assoc, drop_left' ha, take_left' hb]

theorem take_append_append {a b rest : Bytes} {m : Nat} (ha : a.length = m) :
    (a ++ b ++ rest).take m = a := by
  rw [append_assoc, take_left' ha]

theorem decodeBytes_encodeBytes (chrono : Chrono) (s : Scalar) :
    decodeBytes chrono s.encodeBytes s.category = if s.decodable then some s else none := by
  cases s <;> simp only [encodeBytes, significantBytes, category, decodeBytes, decodable]
  case boolean value => cases value <;> rfl
  case integer i =>
    rw [take_left' (length_encodeSigned 8 _), decodeSigned_encodeSigned_eight i.inI64,
      Integer.ofInt, dif_pos i.inI64]
    rfl
  case double d =>
    rw [take_left' (length_encodeBE 8 _), decodeBE_encodeBE d.encodedBits_lt,
      d.ofEncodedBits_encodedBits]
    rfl
  case decimal d =>
    have hlt : d.fractional < 256 ^ 8 := d.fractional_lt.trans (by decide)
    rw [take_append_append (length_encodeSigned 8 _),
      take_drop_append (length_encodeSigned 8 _) (length_encodeBE 8 _),
      decodeSigned_encodeSigned_eight d.integer_inI64, decodeBE_encodeBE hlt, Decimal.new,
      dif_pos ⟨d.integer_inI64, d.fractional_lt⟩]
    rfl
  case date d =>
    obtain ⟨hlo, hhi⟩ := d.inRange
    rw [take_left' (length_encodeSigned 4 _),
      decodeSigned_encodeSigned_four (by omega) (by omega),
      chrono.fromNumDaysFromCeOpt_eq_some.mpr rfl]
    rfl
  case dateTime t =>
    have hlt : t.nanos < 256 ^ 4 := t.nanos_lt.trans (by decide)
    rw [take_append_append (length_encodeSigned 8 _),
      take_drop_append (length_encodeSigned 8 _) (length_encodeBE 4 _),
      decodeSigned_encodeSigned_eight t.timestamp_inI64, decodeBE_encodeBE hlt,
      chrono.fromTimestamp_self t]
    by_cases h : isTimestamp t.timestamp t.nanos <;> simp [h]
  case dateTimeTZ t tz =>
    have hlt : t.nanos < 256 ^ 4 := t.nanos_lt.trans (by decide)
    have hlen : (encodeSigned 8 t.timestamp ++ encodeBE 4 t.nanos).length = 12 := by simp
    rw [take_drop_append hlen tz.length_encode, TimeZone.decode_encode,
      append_assoc (encodeSigned 8 t.timestamp ++ encodeBE 4 t.nanos),
      take_append_append (length_encodeSigned 8 _),
      take_drop_append (length_encodeSigned 8 _) (length_encodeBE 4 _),
      decodeSigned_encodeSigned_eight t.timestamp_inI64, decodeBE_encodeBE hlt,
      chrono.fromTimestamp_self t]
    by_cases h : isTimestamp t.timestamp t.nanos <;> simp [h]
  case duration months days nanos =>
    have hm : months.val < 256 ^ 4 := months.isLt
    have hd : days.val < 256 ^ 4 := days.isLt
    have hn : nanos.val < 256 ^ 8 := nanos.isLt
    have hlen : (encodeBE 4 months.val ++ encodeBE 4 days.val).length = 8 := by simp
    rw [take_drop_append hlen (length_encodeBE 8 _),
      append_assoc (encodeBE 4 months.val ++ encodeBE 4 days.val),
      take_append_append (length_encodeBE 4 _),
      take_drop_append (length_encodeBE 4 _) (length_encodeBE 4 _), decodeBE_encodeBE hm,
      decodeBE_encodeBE hd, decodeBE_encodeBE hn]
    simp

end Scalar

end RoundTrip

section Equality

theorem Double.eq_self (d : Double) : d.eq d = !d.isNaN := by simp [Double.eq]

namespace Scalar
variable {s t : Scalar}

theorem category_eq (h : s.eq t = true) : s.category = t.category := by
  cases s <;> cases t <;> first | rfl | simp [eq] at h

theorem eq_self_of_canonical (hs : s.canonical = true) : s.eq s = true := by
  cases s with
  | double d =>
    rw [eq, Double.eq_self]
    exact (Bool.and_eq_true_iff.mp hs).1
  | _ => simp [eq]

theorem eq_of_eq (hs : s.canonical = true) (h : s.eq t = true) : s = t := by
  cases s with
  | double a =>
    cases t with
    | double b =>
      simp only [canonical, Bool.and_eq_true, decide_eq_true_eq] at hs
      simp only [eq, Double.eq, Bool.and_eq_true, Bool.or_eq_true, decide_eq_true_eq] at h
      exact congrArg Scalar.double (h.2.resolve_right fun hzero => hs.2 hzero.1)
    | _ => simp [eq] at h
  | dateTimeTZ utc tz => simp [canonical] at hs
  | _ => simpa [eq] using h

theorem encodeBytes_ne {a b : Scalar} (hcategory : a.category = b.category)
    (hne : a.significantBytes ≠ b.significantBytes)
    (hlen : a.significantBytes.length = b.significantBytes.length) :
    a.encodeBytes ≠ b.encodeBytes := by
  intro heq
  rw [encodeBytes, encodeBytes, hcategory, hlen] at heq
  exact hne (append_cancel_right heq)

theorem exists_ne (hs : s.canonical = false) (hself : s.eq s = true) :
    ∃ t : Scalar, s.eq t = true ∧ s.encodeBytes ≠ t.encodeBytes := by
  cases s with
  | double d =>
    simp only [eq, Double.eq_self, Bool.not_eq_true'] at hself
    simp only [canonical, hself, Bool.not_false, Bool.true_and, decide_eq_false_iff_not,
      not_not] at hs
    -- the zero of the other sign
    have hbits : d.bits = 0 ∨ d.bits = 2 ^ 63 := by
      have hmod : d.bits % 2 ^ 63 = 0 := hs
      have := d.bits_lt
      omega
    have hzero : ∀ b : Double, b.bits = 2 ^ 63 - d.bits → d.eq b = true := by
      intro b hb
      have hmag : b.magnitude = 0 := by
        rw [Double.magnitude, hb]
        rcases hbits with h | h <;> simp [h]
      simp [Double.eq, hs, hmag, Double.isNaN]
    refine ⟨.double ⟨2 ^ 63 - d.bits, by omega⟩, hzero _ rfl,
      encodeBytes_ne rfl (fun heq => ?_) (by simp [significantBytes])⟩
    have heq := encodeBE_injective d.encodedBits_lt (Double.encodedBits_lt _) heq
    rcases hbits with h | h <;> simp [Double.encodedBits, Double.isSignPositive, h] at heq
  | dateTimeTZ utc tz =>
    -- the same instant in a zone that is not the one given
    obtain ⟨tz', htz⟩ : ∃ tz' : TimeZone, tz' ≠ tz := by
      by_cases h : tz = .iana ⟨0, by decide⟩
      · exact ⟨.iana ⟨1, by decide⟩, by rw [h]; decide⟩
      · exact ⟨.iana ⟨0, by decide⟩, Ne.symm h⟩
    refine ⟨.dateTimeTZ utc tz', by simp [eq], encodeBytes_ne rfl (fun heq => ?_)
      (by simp [significantBytes, TimeZone.length_encode])⟩
    have heq := append_cancel_left heq
    have hdecode := TimeZone.decode_encode .standard tz
    rw [heq, TimeZone.decode_encode .standard tz'] at hdecode
    exact htz (Option.some.inj hdecode)
  | _ => simp [canonical] at hs

end Scalar

end Equality

end TypeDB.Encoding
