import TypeDB.Encoding.StructBytes
import TypeDB.Foundations.Lex

/-! Ids of attributes that hold the value. Their bytes are in the order of the values, but for the
two zeros, the zones of one instant, and durations, which have no order. -/

namespace TypeDB.Encoding
open ByteString List TypeDB.Lex Nat StringAttributeID Category Scalar NaiveDateTime

/-- Sign and magnitude as one number, the same for both zeros. -/
def Double.signed (d : Double) : Int := if d.isSignPositive then d.magnitude else -d.magnitude

def Double.partialCmp (a b : Double) : Option Ordering :=
  if a.isNaN || b.isNaN then none else some (compare a.signed b.signed)

def NaiveDateTime.cmp (a b : NaiveDateTime) : Ordering :=
  (compare a.timestamp b.timestamp).then (compare a.nanos b.nanos)

/-- `partial_cmp` of two values of one type. -/
def Scalar.partialCmp : Scalar → Scalar → Option Ordering
  | .boolean a, .boolean b => some (compare a b)
  | .integer a, .integer b => some (compare a.value b.value)
  | .double a, .double b => a.partialCmp b
  | .decimal a, .decimal b =>
    some ((compare a.integer b.integer).then (compare a.fractional b.fractional))
  | .date a, .date b => some (compare a.numDaysFromCe b.numDaysFromCe)
  | .dateTime a, .dateTime b | .dateTimeTZ a _, .dateTimeTZ b _ => some (a.cmp b)
  | _, _ => none

def Scalar.isNaN : Scalar → Bool
  | .double d => d.isNaN
  | _ => false

inductive InlineValue
  | scalar (value : Scalar) (notNaN : value.isNaN = false)
  | string (value : Bytes) (short : isInlineable value = true)

namespace InlineValue

def toValue : InlineValue → Value
  | scalar s _ => .scalar s
  | string b _ => .string b

def partialCmp : InlineValue → InlineValue → Option Ordering
  | scalar a _, scalar b _ => a.partialCmp b
  | string a _, string b _ => some (compareOfLessAndEq a b)
  | _, _ => none

/-- `AttributeID::build_inline`. -/
def buildInline : InlineValue → Bytes
  | scalar s _ => s.category.toByte :: s.encodeBytes
  | string b _ => buildInlineId b

end InlineValue

/-- The value in the bytes of an inline id; the last byte of a string is its length. -/
def AttributeID.read (chrono : Chrono) : Bytes → Option Value
  | [] => none
  | byte :: bytes => do
    match ← ofByte byte with
    | .hashed .struct => none
    | .hashed .string =>
      let length ← bytes[inlineOrPrefixedHashLength]?
      if length.val ≤ inlineOrPrefixedHashLength then
        some (.string (bytes.take length.val))
      else none
    | category => (decodeBytes chrono bytes category).map .scalar

/-- `AttributeID::new` takes the array of the length of its category only. -/
def AttributeVertex.decode (bytes : Bytes) : Option (TypeID × Bytes) := do
  let category ← ofByte (← bytes[3]?)
  if (bytes.drop 3).length = 1 + category.encodedLength then
    some (Fin.ofNat _ (decodeBE ((bytes.drop 1).take 2)), bytes.drop 3)
  else none

structure InlineValue.IdFaithful (chrono : Chrono) (a b : InlineValue) : Prop where
  read : AttributeID.read chrono a.buildInline = some a.toValue
  vertex : ∀ typeId, AttributeVertex.decode (writePrefixTypeAttributeId typeId a.buildInline) =
    some (typeId, a.buildInline)
  ordered : a.toValue.category = b.toValue.category →
    (a.buildInline < b.buildInline ↔ a.partialCmp b = some .lt)

/-- The bytes of the first are smaller although it is not. -/
def Scalar.Misplaced : Scalar → Scalar → Prop
  | .double a, .double b => a.bits = 2 ^ 63 ∧ b.bits = 0
  | .dateTimeTZ t tz, .dateTimeTZ t' tz' => t = t' ∧ tz.encode < tz'.encode
  | .duration months days nanos, .duration months' days' nanos' =>
    months < months' ∨ months = months' ∧ (days < days' ∨ days = days' ∧ nanos < nanos')
  | _, _ => False

def InlineValue.Misplaced : InlineValue → InlineValue → Prop
  | scalar a _, scalar b _ => a.Misplaced b
  | _, _ => False

section Order
variable {w m n : Nat} {u v x y : Bytes}

theorem append_lt_append_iff {α : Type} [LinearOrder α] {a b : α} (h : u.length = v.length)
    (hab : u < v ↔ a < b) (hba : v < u ↔ b < a) :
    u ++ x < v ++ y ↔ a < b ∨ a = b ∧ x < y := by
  have heq : u = v ↔ a = b := by
    rw [← not_iff_not, ← Ne, ← Ne, ne_iff_lt_or_gt, ne_iff_lt_or_gt, hab]
    exact or_congr_right hba
  rw [← heq, ← hab]
  by_cases huv : u = v
  · subst huv
    simp [append_lt_append_left_iff]
  · have hapart : Apart u v :=
      ⟨fun hp => huv (hp.eq_of_length h), fun hp => huv (hp.eq_of_length h.symm).symm⟩
    simp [hapart.append_lt, huv]

theorem encodeBE_lt_iff (hm : m < 256 ^ w) (hn : n < 256 ^ w) :
    encodeBE w m < encodeBE w n ↔ m < n := by
  refine ⟨fun h => ?_, encodeBE_lt hn⟩
  rcases lt_trichotomy m n with hlt | rfl | hgt
  · exact hlt
  · exact absurd h (lt_irrefl _)
  · exact absurd h (encodeBE_lt hm hgt).asymm

theorem encodeSigned_lt_iff {a b : Int} (ha : -(128 * 256 ^ w) ≤ a ∧ a < 128 * 256 ^ w)
    (hb : -(128 * 256 ^ w) ≤ b ∧ b < 128 * 256 ^ w) :
    encodeSigned (w + 1) a < encodeSigned (w + 1) b ↔ a < b := by
  have hcast : (256 : Int) ^ w = (256 ^ w : Nat) := by push_cast; rfl
  rw [hcast] at ha hb
  rw [encodeSigned, encodeSigned, Nat.add_sub_cancel, hcast, encodeBE_lt_iff]
  · omega
  all_goals rw [pow_succ]; omega

def padded (n : Nat) (u : Bytes) (i : Byte) : Bytes := u ++ replicate (n - u.length) 0 ++ [i]

theorem zeros_lt_padded {i j : Byte} (hv : v.length ≤ n) (hij : i < j) :
    padded n [] i < padded n v j := by
  induction v generalizing n with
  | nil => simpa [padded, append_lt_append_left_iff, cons_lt_cons_iff] using hij
  | cons b v ih =>
    obtain ⟨n, rfl⟩ := Nat.exists_eq_succ_of_ne_zero (Nat.ne_of_gt (Nat.zero_lt_of_lt hv))
    have hrest := ih (Nat.le_of_succ_le_succ hv)
    simp only [padded, length_nil, Nat.sub_zero, nil_append, length_cons, cons_append,
      Nat.succ_sub_succ, replicate_succ, cons_lt_cons_iff] at hrest ⊢
    exact (Fin.zero_le b).lt_or_eq.imp id fun h => ⟨h, hrest⟩

/-- Where one string ends, the other goes on with zeros at least, and then the length decides. -/
theorem padded_lt_iff (hu : u.length ≤ n) (hv : v.length ≤ n) {i j : Byte}
    (hij : i < j ↔ u.length < v.length) (hji : j < i ↔ v.length < u.length) :
    padded n u i < padded n v j ↔ u < v := by
  induction u generalizing v n with
  | nil =>
    cases v with
    | nil => simp [padded, append_lt_append_left_iff, cons_lt_cons_iff, hij]
    | cons b v => exact iff_of_true (zeros_lt_padded hv (hij.mpr (by simp))) (nil_lt_cons b v)
  | cons a u ih =>
    cases v with
    | nil =>
      exact iff_of_false (zeros_lt_padded hu (hji.mpr (by simp))).asymm (not_lt_nil _)
    | cons b v =>
      obtain ⟨n, rfl⟩ := exists_eq_succ_of_ne_zero (ne_of_gt (zero_lt_of_lt hv))
      simp only [length_cons, succ_lt_succ_iff] at hij hji
      have hrest := ih (le_of_succ_le_succ hu) (le_of_succ_le_succ hv) hij hji
      simp only [padded, length_cons, cons_append, succ_sub_succ, cons_lt_cons_iff] at hrest ⊢
      rw [hrest]

end Order

theorem Double.encodedBits_lt_iff {a b : Double} (ha : a.isNaN = false) (hb : b.isNaN = false) :
    a.encodedBits < b.encodedBits ↔ a.partialCmp b = some .lt ∨ a.bits = 2 ^ 63 ∧ b.bits = 0 := by
  have hlt := a.bits_lt
  have hlt' := b.bits_lt
  simp only [partialCmp, ha, hb, Bool.or_self, Bool.false_eq_true, if_false, Option.some.injEq,
    compare_lt_iff_lt, encodedBits, signed, magnitude, isSignPositive, decide_eq_true_eq]
  split_ifs <;> omega

theorem NaiveDateTime.cmp_lt_iff {a b : NaiveDateTime} : a.cmp b = .lt ↔
    a.timestamp < b.timestamp ∨ a.timestamp = b.timestamp ∧ a.nanos < b.nanos := by
  simp [cmp, Ordering.then_eq_lt, compare_lt_iff_lt]

namespace Scalar
variable {a b : Scalar}

theorem length_significantBytes (h : a.category = b.category) :
    a.significantBytes.length = b.significantBytes.length := by
  cases a <;> cases b <;>
    first | (simp [significantBytes, TimeZone.length_encode]; done) | cases h

theorem encodeBytes_lt_iff (h : a.category = b.category) :
    a.encodeBytes < b.encodeBytes ↔ a.significantBytes < b.significantBytes := by
  have hlength := length_significantBytes h
  rw [encodeBytes, encodeBytes, append_lt_append_iff hlength Iff.rfl Iff.rfl, h, hlength]
  simp

theorem signed_lt_iff {a b : Int} (ha : InI64 a) (hb : InI64 b) :
    encodeSigned 8 a < encodeSigned 8 b ↔ a < b := by
  obtain ⟨ha₁, ha₂⟩ := ha
  obtain ⟨hb₁, hb₂⟩ := hb
  exact encodeSigned_lt_iff (w := 7) (by norm_num; omega) (by norm_num; omega)

theorem signed_append_lt_iff {a b : Int} (ha : InI64 a) (hb : InI64 b) {x y : Bytes} :
    encodeSigned 8 a ++ x < encodeSigned 8 b ++ y ↔ a < b ∨ a = b ∧ x < y :=
  append_lt_append_iff (by simp) (signed_lt_iff ha hb) (signed_lt_iff hb ha)

theorem unsigned_append_lt_iff {w m n : Nat} (hm : m < 256 ^ w) (hn : n < 256 ^ w) {x y : Bytes} :
    encodeBE w m ++ x < encodeBE w n ++ y ↔ m < n ∨ m = n ∧ x < y :=
  append_lt_append_iff (by simp) (encodeBE_lt_iff hm hn) (encodeBE_lt_iff hn hm)

theorem instant_append_lt_iff {s t : NaiveDateTime} {x y : Bytes} :
    encodeSigned 8 s.timestamp ++ encodeBE 4 s.nanos ++ x <
      encodeSigned 8 t.timestamp ++ encodeBE 4 t.nanos ++ y ↔ s.cmp t = .lt ∨ s = t ∧ x < y := by
  have hs : s.nanos < 256 ^ 4 := s.nanos_lt.trans (by decide)
  have ht : t.nanos < 256 ^ 4 := t.nanos_lt.trans (by decide)
  rw [cmp_lt_iff, append_assoc, append_assoc,
    signed_append_lt_iff s.timestamp_inI64 t.timestamp_inI64, unsigned_append_lt_iff hs ht]
  cases s
  cases t
  simp only [mk.injEq]
  tauto

theorem significantBytes_lt_iff (h : a.category = b.category) (ha : a.isNaN = false)
    (hb : b.isNaN = false) :
    a.significantBytes < b.significantBytes ↔ a.partialCmp b = some .lt ∨ Misplaced a b := by
  cases a <;> cases b <;> try (cases h; done)
  all_goals simp only [significantBytes, partialCmp, Misplaced, or_false, Option.some.injEq,
    Ordering.then_eq_lt, compare_lt_iff_lt, compare_eq_iff_eq, reduceCtorEq, false_or]
  case boolean.boolean a b => revert a b; decide
  case integer.integer a b => exact signed_lt_iff a.inI64 b.inI64
  case double.double a b =>
    rw [encodeBE_lt_iff a.encodedBits_lt b.encodedBits_lt]
    exact Double.encodedBits_lt_iff ha hb
  case decimal.decimal a b =>
    rw [signed_append_lt_iff a.integer_inI64 b.integer_inI64,
      encodeBE_lt_iff (a.fractional_lt.trans (by decide)) (b.fractional_lt.trans (by decide))]
  case date.date a b =>
    obtain ⟨ha₁, ha₂⟩ := a.inRange
    obtain ⟨hb₁, hb₂⟩ := b.inRange
    exact encodeSigned_lt_iff (w := 3) (by norm_num; omega) (by norm_num; omega)
  case dateTime.dateTime a b => simpa using instant_append_lt_iff (x := []) (y := [])
  case dateTimeTZ.dateTimeTZ a tz b tz' => exact instant_append_lt_iff
  case duration.duration months days nanos months' days' nanos' =>
    rw [append_assoc, append_assoc, unsigned_append_lt_iff months.isLt months'.isLt,
      unsigned_append_lt_iff days.isLt days'.isLt, encodeBE_lt_iff nanos.isLt nanos'.isLt]
    simp only [Fin.lt_def, Fin.ext_iff]

theorem Misplaced.not_lt (h : a.Misplaced b) :
    a.category = b.category ∧ a.partialCmp b ≠ some .lt := by
  unfold Misplaced at h
  split at h
  · refine ⟨rfl, ?_⟩
    simp [partialCmp, Double.partialCmp, Double.signed, Double.isSignPositive, Double.magnitude, h]
  · exact ⟨rfl, by simp [partialCmp, cmp_lt_iff, h.1]⟩
  · exact ⟨rfl, by simp [partialCmp]⟩
  · exact h.elim

theorem read_scalar (chrono : Chrono) (s : Scalar) (bytes : Bytes) :
    AttributeID.read chrono (s.category.toByte :: bytes) =
      (decodeBytes chrono bytes s.category).map Value.scalar := by
  cases s <;> rfl

end Scalar

theorem AttributeVertex.decode_write (typeId : TypeID) {category : Category} {bytes : Bytes}
    (h : bytes.length = category.encodedLength) :
    decode (writePrefixTypeAttributeId typeId (category.toByte :: bytes)) =
      some (typeId, category.toByte :: bytes) := by
  have hdecode : decodeBE (encodeBE 2 typeId.val) = typeId.val := decodeBE_encodeBE typeId.isLt
  simp only [encodeBE, pow_one, pow_zero, Nat.div_one] at hdecode
  simp [decode, writePrefixTypeAttributeId, encodeBE, ofByte_toByte, h, add_comm, hdecode]

namespace InlineValue

theorem lt_iff {a b : InlineValue} (h : a.toValue.category = b.toValue.category) :
    a.buildInline < b.buildInline ↔ a.partialCmp b = some .lt ∨ a.Misplaced b := by
  cases a with
  | scalar a ha =>
    cases b with
    | scalar b hb =>
      have h : a.category = b.category := h
      simp only [buildInline, h, cons_lt_cons_iff, lt_self_iff_false, true_and, false_or]
      exact (encodeBytes_lt_iff h).trans (significantBytes_lt_iff h ha hb)
    | string b hb => cases a <;> cases h
  | string a ha =>
    cases b with
    | scalar b hb => cases b <;> cases h
    | string b hb =>
      have ha : a.length ≤ 16 := of_decide_eq_true ha
      have hb : b.length ≤ 16 := of_decide_eq_true hb
      have hpadded := padded_lt_iff (i := Fin.ofNat 256 a.length) (j := Fin.ofNat 256 b.length)
        ha hb (by simp [Fin.lt_def]; omega) (by simp [Fin.lt_def]; omega)
      simp only [partialCmp, Option.some.injEq, compareOfLessAndEq_eq_lt, Misplaced, or_false,
        ← hpadded]
      exact cons_lt_cons_iff.trans (by simp [padded, inlineOrPrefixedHashLength])

theorem read_iff (chrono : Chrono) (a : InlineValue) :
    AttributeID.read chrono a.buildInline = some a.toValue ↔ a.toValue.decodable = true := by
  cases a with
  | scalar s hs =>
    rw [buildInline, read_scalar, decodeBytes_encodeBytes]
    cases hd : s.decodable <;> simp [toValue, Value.decodable, Value.all, hd]
  | string b hb =>
    have hb : b.length ≤ 16 := of_decide_eq_true hb
    have hlength : (b ++ replicate (16 - b.length) 0).length = 16 := by simp; omega
    have hval : (Fin.ofNat 256 b.length).val = b.length := mod_eq_of_lt (by omega)
    have hget : (padded 16 b (Fin.ofNat 256 b.length))[16]? = some (Fin.ofNat 256 b.length) := by
      rw [padded, getElem?_append_right (by rw [hlength]), hlength]
      rfl
    refine iff_of_true ?_ rfl
    change ((padded 16 b (Fin.ofNat 256 b.length))[16]?.bind fun length => if length.val ≤ 16 then
      some (Value.string ((padded 16 b _).take length.val)) else none) = some (.string b)
    rw [hget, Option.bind_some, hval, if_pos hb, padded, append_assoc, take_left]

theorem vertex (a : InlineValue) (typeId : TypeID) :
    AttributeVertex.decode (writePrefixTypeAttributeId typeId a.buildInline) =
      some (typeId, a.buildInline) := by
  cases a with
  | scalar s hs => exact AttributeVertex.decode_write typeId s.length_encodeBytes
  | string b hb =>
    have hb : b.length ≤ 16 := of_decide_eq_true hb
    refine @AttributeVertex.decode_write typeId (.hashed .string) _ ?_
    simp [inlineOrPrefixedHashLength, encodedLength, isShort]
    omega

/-- An id keeps its value and its place exactly where the value can be decoded and is not one of
those that are out of place. -/
theorem idFaithful_iff (chrono : Chrono) (a b : InlineValue) :
    IdFaithful chrono a b ↔ a.toValue.decodable = true ∧ ¬ a.Misplaced b := by
  constructor
  · intro h
    refine ⟨(read_iff chrono a).mp h.read, fun hm => ?_⟩
    have hnot : a.toValue.category = b.toValue.category ∧ a.partialCmp b ≠ some .lt := by
      cases a <;> cases b <;> first | exact hm.elim | exact Misplaced.not_lt hm
    exact hnot.2 ((h.ordered hnot.1).mp ((lt_iff hnot.1).mpr (.inr hm)))
  · rintro ⟨hd, hm⟩
    exact ⟨(read_iff chrono a).mpr hd, vertex a, fun h => (lt_iff h).trans (or_iff_left hm)⟩

theorem negativeZero_bits : 2 ^ 63 < 2 ^ 64 := by decide

theorem zero_bits : 0 < 2 ^ 64 := by decide

def negativeZero : InlineValue := .scalar (.double ⟨2 ^ 63, negativeZero_bits⟩) (by decide)

def zero : InlineValue := .scalar (.double ⟨0, zero_bits⟩) (by decide)

theorem negativeZero_not_idFaithful : ¬ IdFaithful .standard negativeZero zero := fun h =>
  absurd ((h.ordered rfl).mp (by decide)) (by decide)

end InlineValue
end TypeDB.Encoding
