import TypeDB.Encoding.StructBytes

/-! Hashes of values. A hash is what the hasher makes of the words it is given: doubles give their
encoded bytes, so that the two zeros differ, and structs their fields as the map goes through
them, while `==` sees neither the sign of a zero nor an order of fields. -/

namespace TypeDB.Encoding
open ByteString List Value StructValue Scalar

section Words
variable (chrono : Chrono)

def Scalar.hashWords : Scalar → List Int
  | .boolean value => [if value then 1 else 0]
  | .integer i => [i.value]
  | .double d => 8 :: (encodeBE 8 d.encodedBits).map fun b => (b.val : Int)
  | .decimal d => [d.integer, d.fractional]
  | .date d => chrono.hashDate d
  | .dateTime t => chrono.hashDateTime t
  -- only the instant
  | .dateTimeTZ t _ => chrono.hashDateTime t
  | .duration months days nanos => [months.val, days.val, nanos.val]

mutual

def Value.hashWords : Value → List Int
  | .scalar s => s.hashWords chrono
  | .string b => b.map (fun b => (b.val : Int)) ++ [255]
  -- the definition key, then the fields
  | .struct d fields => 3 :: 20 :: ((d.val / 256 : Nat) : Int) :: ((d.val % 256 : Nat) : Int) ::
    fieldsHashWords fields

def fieldsHashWords : List (StructFieldID × Value) → List Int
  | [] => []
  | (idx, value) :: rest => [(idx.val : Int)] ++ value.hashWords ++ fieldsHashWords rest

end

/-- `hash` into any hasher, as its way to take one more word. -/
def Value.hash {H : Type} (write : H → Int → H) (v : Value) (state : H) : H :=
  (v.hashWords chrono).foldl write state

def Value.HashesAsEqual (v : Value) : Prop :=
  ∀ w : Value, w.distinct = true → v.eq w = true → ∀ {H : Type} (write : H → Int → H) (state : H),
    v.hash chrono write state = w.hash chrono write state

def hashCode : StructBytes.FieldwiseCode Int where
  value v := some (v.hashWords chrono)
  fields fields := some (fieldsHashWords chrono fields)
  fieldHead idx _ := [(idx.val : Int)]
  structHead d _ := [3, 20, (d.val / 256 : Nat), (d.val % 256 : Nat)]
  fields_cons h := ⟨_, _, rfl, rfl, (Option.some.inj h).symm⟩
  value_struct h := ⟨_, rfl, (Option.some.inj h).symm⟩
  fieldHead_inj h := by
    have h := (cons.inj h).1
    exact Fin.ext (by omega)

end Words

def Scalar.nonzero : Scalar → Bool
  | .double d => decide (d.magnitude ≠ 0)
  | _ => true

variable {chrono : Chrono}

namespace Scalar
variable {s t : Scalar}

theorem hashWords_eq (hs : s.nonzero = true) (h : s.eq t = true) :
    s.hashWords chrono = t.hashWords chrono := by
  cases s with
  | double a =>
    cases t with
    | double b =>
      simp only [nonzero, decide_eq_true_eq] at hs
      simp only [eq, Double.eq, Bool.and_eq_true, Bool.or_eq_true, decide_eq_true_eq] at h
      rw [h.2.resolve_right fun hzero => hs hzero.1]
    | _ => simp [eq] at h
  | dateTimeTZ utc tz => cases t <;> simp [eq] at h; rw [hashWords, hashWords, h]
  | _ => rw [eq_of_eq rfl h]

theorem exists_hashWords_ne (hs : s.nonzero = false) (hself : s.eq s = true) :
    ∃ t : Scalar, s.eq t = true ∧ s.hashWords chrono ≠ t.hashWords chrono := by
  cases s with
  | double d =>
    have hzero : d.magnitude = 0 := by simpa [nonzero] using hs
    obtain ⟨t, heq, hne⟩ := exists_ne (by simp [canonical, hzero]) hself
    cases t with
    | double b =>
      refine ⟨_, heq, fun h => hne ?_⟩
      have hbytes : encodeBE 8 d.encodedBits = encodeBE 8 b.encodedBits :=
        map_injective_iff.mpr (fun x y hxy => Fin.ext (Int.ofNat.inj hxy)) (cons.inj h).2
      simp only [encodeBytes, significantBytes, hbytes, category]
    | _ => simp [eq] at heq
  | _ => simp [nonzero] at hs

end Scalar

namespace Value
variable {v w : Value}

/-- A value that equals anything equals itself. -/
theorem eq_self_of_eq (hdistinct : v.distinct = true) (h : v.eq w = true) : v.eq v = true := by
  induction v using induct generalizing w with
  | scalar s =>
    cases w with
    | scalar t =>
      cases s <;> cases t <;> simp_all [eq, Scalar.eq, Double.eq]
    | _ => simp [eq] at h
  | string b => simp [eq]
  | struct d fields ih =>
    cases w with
    | struct e others =>
      obtain ⟨hnodup, hdistinct⟩ := all_struct.mp hdistinct
      simp only [eq, Bool.and_eq_true, fieldsEq_iff] at h
      have hself : fieldsEq fields fields = true := by
        refine fieldsEq_of_mem (of_decide_eq_true hnodup) fun f hf => ?_
        obtain ⟨other, -, heq⟩ := h.2 f hf
        exact ⟨f, hf, rfl, ih f hf (hdistinct f hf) heq⟩
      simp [eq, hself]
    | _ => simp [eq] at h

theorem hashWords_eq_of_eq (hplain : v.plain nonzero = true) (h : v.eq w = true) :
    v.hashWords chrono = w.hashWords chrono :=
  related_of_eq (R := fun v w => v.hashWords chrono = w.hashWords chrono) hashWords_eq
    (fun _ => rfl) (fun h => by simp [hashWords, fieldsHashWords, h]) hplain h

theorem HashesAsEqual.hashWords_eq (h : v.HashesAsEqual chrono) (hw : w.distinct = true)
    (heq : v.eq w = true) : v.hashWords chrono = w.hashWords chrono := by
  -- a hasher that keeps all it is given
  have hsame := h w hw heq (fun words word => word :: words) []
  simpa [hash] using hsame

/-- A value hashes as everything it equals exactly when it equals nothing, for a NaN in it, or has
no zero among its doubles and no struct with two fields. -/
theorem hashesAsEqual_iff (chrono : Chrono) (v : Value) (hdistinct : v.distinct = true) :
    v.HashesAsEqual chrono ↔ v.eq v = false ∨ v.plain nonzero = true := by
  constructor
  · intro hhash
    by_contra hnot
    simp only [not_or, Bool.not_eq_false, Bool.not_eq_true] at hnot
    obtain ⟨w, hw, heq, hne⟩ := (hashCode chrono).exists_value_ne (p := nonzero)
      (fun hs hself => (exists_hashWords_ne hs hself).imp fun t ht =>
        ⟨ht.1, fun h => ht.2 (Option.some.inj h)⟩) hdistinct hnot.1 hnot.2 rfl
    exact hne (congrArg some (hhash.hashWords_eq hw heq).symm)
  · rintro (hself | hplain) w hw heq H write state
    · rw [eq_self_of_eq hdistinct heq] at hself
      cases hself
    · rw [hash, hash, hashWords_eq_of_eq hplain heq]

theorem nestedString_hashesAsEqual : nestedString.toValue.HashesAsEqual .standard :=
  (hashesAsEqual_iff .standard _ nestedString.distinct).mpr (.inr (by decide))

def zero : Value := .scalar (.double ⟨0, by decide⟩)

def negativeZero : Value := .scalar (.double ⟨2 ^ 63, by decide⟩)

theorem zero_twoFields_not_hashesAsEqual :
    ¬ zero.HashesAsEqual .standard ∧ ¬ twoFields.toValue.HashesAsEqual .standard := by
  constructor <;> intro h
  · have hwords := h.hashWords_eq (w := negativeZero) rfl (by decide)
    exact absurd hwords (by decide)
  · have hwords := h.hashWords_eq (w := twoFieldsSwapped.toValue) (by decide) (by decide)
    exact absurd hwords (by decide)

end Value

end TypeDB.Encoding
