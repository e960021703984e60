import TypeDB.Encoding.ScalarBytes

/-! Struct values and their bytes. The fields are a hash map, here the list in which it is
traversed; equality of values does not see the order, while the encoding follows it. -/

namespace TypeDB.Encoding
open ByteString List Option Prod

abbrev StructFieldID := Fin 65536
abbrev DefinitionID := Fin 65536

/-- A string is its bytes in UTF-8, a struct the id in its definition key and its fields. -/
inductive Value
  | scalar (value : Scalar)
  | string (value : Bytes)
  | struct (definitionId : DefinitionID) (fields : List (StructFieldID × Value))

theorem Value.induct {P : Value → Prop} (scalar : ∀ s, P (.scalar s)) (string : ∀ b, P (.string b))
    (struct : ∀ d fields, (∀ f ∈ fields, P f.2) → P (.struct d fields)) (v : Value) : P v :=
  @Value.rec P (fun fields => ∀ f ∈ fields, P f.2) (fun f => P f.2) scalar string struct
    (fun _ h => nomatch h)
    (fun _ _ hhead htail f hf => (mem_cons.mp hf).elim (fun h => h ▸ hhead) (htail f))
    (fun _ _ h => h) v

def Value.category : Value → Category
  | .scalar s => s.category
  | .string _ => .hashed .string
  | .struct _ _ => .hashed .struct

mutual

/-- `==` on values: maps are equal when they have as many fields and each is found in the other. -/
def Value.eq : Value → Value → Bool
  | .scalar a, .scalar b => a.eq b
  | .string a, .string b => decide (a = b)
  | .struct d fields, .struct e others =>
    decide (d = e) && decide (fields.length = others.length) && fieldsEq fields others
  | _, _ => false

def fieldsEq : List (StructFieldID × Value) → List (StructFieldID × Value) → Bool
  | [], _ => true
  | (idx, value) :: rest, others =>
    (match others.lookup idx with
      | some other => value.eq other
      | none => false) && fieldsEq rest others

end

mutual

def Value.all (p : Scalar → Bool) (q : Bytes → Bool) (r : List StructFieldID → Bool) : Value → Bool
  | .scalar s => p s
  | .string b => q b
  | .struct _ fields => r (fields.map Prod.fst) && fieldsAll p q r fields

def fieldsAll (p : Scalar → Bool) (q : Bytes → Bool) (r : List StructFieldID → Bool) :
    List (StructFieldID × Value) → Bool
  | [] => true
  | (_, value) :: rest => value.all p q r && fieldsAll p q r rest

end

def Value.distinct : Value → Bool :=
  Value.all (fun _ => true) (fun _ => true) fun ids => decide ids.Nodup

def Value.decodable : Value → Bool := Value.all Scalar.decodable (fun _ => true) fun _ => true

def Value.canonical : Value → Bool :=
  Value.all Scalar.canonical (fun _ => true) fun ids => decide (ids.length ≤ 1)

/-- At most one field in any struct, and only scalars that satisfy `p`. -/
def Value.plain (p : Scalar → Bool) : Value → Bool :=
  Value.all p (fun _ => true) fun ids => decide (ids.length ≤ 1)

structure StructValue where
  definitionId : DefinitionID
  fields : List (StructFieldID × Value)
  distinct : (Value.struct definitionId fields).distinct = true

variable (s : StructValue)

def StructValue.toValue : Value := .struct s.definitionId s.fields

namespace StructBytes

def maxValueSize : Nat := 2 ^ 31 - 1
def vleSingleByteMaxSize : Nat := 127

def appendLengthAsVle (len : Nat) : Option Bytes :=
  if len ≤ vleSingleByteMaxSize then some (encodeBE 1 len)
  else if len ≤ maxValueSize then some (encodeBE 4 (len + 2 ^ 31))
  -- `StructFieldValueTooLarge`
  else none

def readVle (bytes : Bytes) : Option (Nat × Bytes) := do
  let first ← bytes.head?
  if first.val < 128 then
    let (len, bytes) ← readExact 1 bytes
    some (decodeBE len, bytes)
  else
    let (len, bytes) ← readExact 4 bytes
    some (decodeBE len % 2 ^ 31, bytes)

mutual

/-- What `encode_struct_into` appends for a value after its category, and for a struct. -/
def encodeValue : Value → Option Bytes
  | .scalar s => some s.encodeBytes
  | .string b => (appendLengthAsVle b.length).map (· ++ b)
  | .struct d fields => do
    let len ← appendLengthAsVle fields.length
    let body ← encodeFields fields
    some (encodeBE 2 d.val ++ len ++ body)

def encodeFields : List (StructFieldID × Value) → Option Bytes
  | [] => some []
  | (idx, value) :: rest => do
    let bytes ← encodeValue value
    let body ← encodeFields rest
    some (encodeBE 2 idx.val ++ [value.category.toByte] ++ bytes ++ body)

end

def insertField (idx : StructFieldID) (value : Value) :
    List (StructFieldID × Value) → List (StructFieldID × Value)
  | [] => [(idx, value)]
  | field :: rest =>
    if field.1 = idx then (idx, value) :: rest else field :: insertField idx value rest

def decodeValue (chrono : Chrono) (decodeStruct : Bytes → Option (Value × Bytes))
    (category : Category) (bytes : Bytes) : Option (Value × Bytes) :=
  match category with
  | .hashed .string => do
    let (len, bytes) ← readVle bytes
    let (string, bytes) ← readExact len bytes
    some (.string string, bytes)
  | .hashed .struct => decodeStruct bytes
  | category => do
    let (value, bytes) ← readExact category.encodedLength bytes
    let scalar ← Scalar.decodeBytes chrono value category
    some (.scalar scalar, bytes)

def decodeFields (chrono : Chrono) (decodeStruct : Bytes → Option (Value × Bytes)) :
    Nat → List (StructFieldID × Value) → Bytes → Option (List (StructFieldID × Value) × Bytes)
  | 0, fields, bytes => some (fields, bytes)
  | n + 1, fields, bytes => do
    let (idx, bytes) ← readExact 2 bytes
    let (byte, bytes) ← readExact 1 bytes
    let category ← byte.head?.bind Category.ofByte
    let (value, bytes) ← decodeValue chrono decodeStruct category bytes
    decodeFields chrono decodeStruct n (insertField (Fin.ofNat _ (decodeBE idx)) value fields)
      bytes

/-- `decode_struct_increment_offset`, at the bytes from the offset on. Every level takes bytes, so
the recursion is no deeper than there are bytes; an error and a panic are both `none`. -/
def decodeStruct (chrono : Chrono) : Nat → Bytes → Option (Value × Bytes)
  | 0, _ => none
  | depth + 1, bytes => do
    let (definitionId, bytes) ← readExact 2 bytes
    let (n, bytes) ← readVle bytes
    let (fields, bytes) ← decodeFields chrono (decodeStruct chrono depth) n [] bytes
    some (.struct (Fin.ofNat _ (decodeBE definitionId)) fields, bytes)

def build : Option Bytes := encodeValue s.toValue

def asStruct (chrono : Chrono) (bytes : Bytes) : Option Value :=
  (decodeStruct chrono bytes.length bytes).map Prod.fst

end StructBytes

section Fields
variable {p : Scalar → Bool} {q : Bytes → Bool} {r : List StructFieldID → Bool}
  {d : DefinitionID} {fields others : List (StructFieldID × Value)}

theorem fieldsAll_iff : fieldsAll p q r fields = true ↔ ∀ f ∈ fields, f.2.all p q r = true := by
  induction fields with
  | nil => simp [fieldsAll]
  | cons f rest ih => simp [fieldsAll, ih]

theorem Value.all_struct : (Value.struct d fields).all p q r = true ↔
    r (fields.map fst) = true ∧ ∀ f ∈ fields, f.2.all p q r = true := by
  rw [Value.all, Bool.and_eq_true, fieldsAll_iff]

theorem fieldsEq_iff : fieldsEq fields others = true ↔
    ∀ f ∈ fields, ∃ other, others.lookup f.1 = some other ∧ f.2.eq other = true := by
  induction fields with
  | nil => simp [fieldsEq]
  | cons f rest ih =>
    cases h : others.lookup f.1 <;> simp [fieldsEq, ih, h]

theorem lookup_of_mem (hnodup : (fields.map fst).Nodup) {f : StructFieldID × Value}
    (hf : f ∈ fields) : fields.lookup f.1 = some f.2 := by
  induction fields with
  | nil => cases hf
  | cons g rest ih =>
    obtain ⟨hnot, hrest⟩ := nodup_cons.mp hnodup
    rcases mem_cons.mp hf with rfl | hmem
    · rw [lookup_cons, beq_self_eq_true]
    · have hne : f.1 ≠ g.1 := fun heq => hnot (heq ▸ mem_map_of_mem hmem)
      rw [lookup_cons, beq_eq_false_iff_ne.mpr hne]
      exact ih hrest hmem

theorem fieldsEq_of_mem (hnodup : (others.map fst).Nodup)
    (h : ∀ f ∈ fields, ∃ g ∈ others, g.1 = f.1 ∧ f.2.eq g.2 = true) :
    fieldsEq fields others = true := by
  rw [fieldsEq_iff]
  intro f hf
  obtain ⟨g, hg, hidx, heq⟩ := h f hf
  exact ⟨g.2, hidx ▸ lookup_of_mem hnodup hg, heq⟩

end Fields

namespace Value
variable {v w : Value}

theorem category_eq (h : v.eq w = true) : v.category = w.category := by
  cases v <;> cases w <;> first | rfl | simp [Value.eq] at h
  exact Scalar.category_eq h

theorem eq_self_of_canonical (hdistinct : v.distinct = true) (hcanonical : v.canonical = true) :
    v.eq v = true := by
  induction v using Value.induct with
  | scalar s => exact Scalar.eq_self_of_canonical hcanonical
  | string b => simp [Value.eq]
  | struct d fields ih =>
    obtain ⟨hnodup, hdistinct⟩ := all_struct.mp hdistinct
    have hfields := (all_struct.mp hcanonical).2
    have hself : fieldsEq fields fields = true :=
      fieldsEq_of_mem (of_decide_eq_true hnodup) fun f hf =>
        ⟨f, hf, rfl, ih f hf (hdistinct f hf) (hfields f hf)⟩
    simp [Value.eq, hself]

/-- What relates equal scalars that satisfy `p`, and structs of one field with related values,
relates every equal values. -/
theorem related_of_eq {p : Scalar → Bool} {R : Value → Value → Prop}
    (hscalar : ∀ {s t}, p s = true → s.eq t = true → R (.scalar s) (.scalar t))
    (hrefl : ∀ v, R v v)
    (hone : ∀ {d idx v w}, R v w → R (.struct d [(idx, v)]) (.struct d [(idx, w)]))
    (hplain : v.plain p = true) (h : v.eq w = true) : R v w := by
  induction v using Value.induct generalizing w with
  | scalar s => cases w <;> simp [Value.eq] at h; exact hscalar hplain h
  | string b => cases w <;> simp [Value.eq] at h; exact h ▸ hrefl _
  | struct d fields ih =>
    cases w with
    | scalar s | string b => simp [Value.eq] at h
    | struct e others =>
      obtain ⟨hlength, hfields⟩ := all_struct.mp hplain
      simp only [Value.eq, Bool.and_eq_true, decide_eq_true_eq, fieldsEq_iff] at h
      obtain ⟨⟨rfl, hlen⟩, hall⟩ := h
      -- there is at most one field on either side
      match fields, others with
      | [], [] => exact hrefl _
      | [f], [g] =>
        obtain ⟨idx, value⟩ := g
        have hf := mem_singleton_self f
        obtain ⟨other, hlookup, heq⟩ := hall f hf
        rw [lookup_cons] at hlookup
        by_cases hidx : f.1 = idx
        · rw [beq_iff_eq.mpr hidx] at hlookup
          cases hlookup
          cases hidx
          exact hone (ih f hf (hfields f hf) heq)
        · rw [beq_eq_false_iff_ne.mpr hidx] at hlookup
          cases hlookup
      | _ :: _ :: _, _ => simp at hlength

theorem eq_of_eq (hcanonical : v.canonical = true) (h : v.eq w = true) : v = w :=
  related_of_eq (R := Eq) (p := Scalar.canonical)
    (fun hs h => congrArg Value.scalar (Scalar.eq_of_eq hs h)) (fun _ => rfl)
    (fun h => by rw [h]) hcanonical h

end Value

namespace StructBytes

section Lengths

theorem readVle_append {len : Nat} {bytes : Bytes} (h : appendLengthAsVle len = some bytes)
    (rest : Bytes) : readVle (bytes ++ rest) = some (len, rest) := by
  have hfirst : ∀ w n, (encodeBE (w + 1) n ++ rest).head? = some (Fin.ofNat 256 (n / 256 ^ w)) :=
    fun w n => rfl
  unfold appendLengthAsVle vleSingleByteMaxSize maxValueSize at h
  split_ifs at h with hsmall hlarge
  · cases h
    have hlt : len < 256 ^ 1 := by omega
    have hbyte : (Fin.ofNat 256 (len / 256 ^ 0)).val < 128 := by
      simp
      omega
    rw [readVle, hfirst, bind_eq_bind, bind_some, if_pos hbyte,
      readExact_append (length_encodeBE 1 len)]
    simp [decodeBE_encodeBE hlt]
  · cases h
    have hlt : len + 2 ^ 31 < 256 ^ 4 := by omega
    have hbyte : ¬ (Fin.ofNat 256 ((len + 2 ^ 31) / 256 ^ 3)).val < 128 := by
      simp
      omega
    rw [readVle, hfirst, bind_eq_bind, bind_some, if_neg hbyte,
      readExact_append (length_encodeBE 4 _)]
    change some (decodeBE (encodeBE 4 (len + 2 ^ 31)) % 2 ^ 31, rest) = _
    rw [decodeBE_encodeBE hlt, Nat.add_mod_right, Nat.mod_eq_of_lt (by omega)]

theorem appendLengthAsVle_isSome {len : Nat} (h : len < 2 ^ 31) :
    ∃ bytes, appendLengthAsVle len = some bytes := by
  unfold appendLengthAsVle maxValueSize
  split_ifs with hsmall hlarge
  · exact ⟨_, rfl⟩
  · exact ⟨_, rfl⟩
  · omega

end Lengths

section Encode
variable {d : DefinitionID} {fields : List (StructFieldID × Value)} {f : StructFieldID × Value}
  {bytes body : Bytes}

theorem encodeValue_struct (h : encodeValue (.struct d fields) = some bytes) :
    ∃ len body, appendLengthAsVle fields.length = some len ∧ encodeFields fields = some body ∧
      bytes = encodeBE 2 d.val ++ len ++ body := by
  simp only [encodeValue, bind_eq_bind, bind_eq_some_iff, some.injEq] at h
  obtain ⟨len, hlen, body, hbody, rfl⟩ := h
  exact ⟨len, body, hlen, hbody, rfl⟩

theorem encodeFields_cons (h : encodeFields (f :: fields) = some bytes) :
    ∃ value body, encodeValue f.2 = some value ∧ encodeFields fields = some body ∧
      bytes = encodeBE 2 f.1.val ++ [f.2.category.toByte] ++ value ++ body := by
  simp only [encodeFields, bind_eq_bind, bind_eq_some_iff, some.injEq] at h
  obtain ⟨value, hvalue, body, hbody, rfl⟩ := h
  exact ⟨value, body, hvalue, hbody, rfl⟩

def shortStrings : Value → Bool :=
  Value.all (fun _ => true) (fun b => decide (b.length < 2 ^ 31)) fun _ => true

theorem encodeValue_isSome (v : Value) (hdistinct : v.distinct = true)
    (hshort : shortStrings v = true) : ∃ bytes, encodeValue v = some bytes := by
  induction v using Value.induct with
  | scalar s => exact ⟨_, rfl⟩
  | string b =>
    obtain ⟨len, hlen⟩ := appendLengthAsVle_isSome (of_decide_eq_true hshort)
    exact ⟨len ++ b, by simp [encodeValue, hlen]⟩
  | struct d fields ih =>
    obtain ⟨hnodup, hdistinct⟩ := Value.all_struct.mp hdistinct
    have hshort := (Value.all_struct.mp hshort).2
    have hcount : fields.length < 2 ^ 31 := by
      have := (of_decide_eq_true hnodup).length_le_card
      rw [length_map, Fintype.card_fin] at this
      omega
    obtain ⟨len, hlen⟩ := appendLengthAsVle_isSome hcount
    have hfields : ∀ gs ⊆ fields, ∃ body, encodeFields gs = some body := by
      intro gs hsub
      induction gs with
      | nil => exact ⟨_, rfl⟩
      | cons g gs ihgs =>
        obtain ⟨hg, hgs⟩ := cons_subset.mp hsub
        obtain ⟨value, hvalue⟩ := ih g hg (hdistinct g hg) (hshort g hg)
        obtain ⟨body, hbody⟩ := ihgs hgs
        exact ⟨_, by simp only [encodeFields, hvalue, hbody]; rfl⟩
    obtain ⟨body, hbody⟩ := hfields fields (List.Subset.refl _)
    exact ⟨_, by simp only [encodeValue, hlen, hbody]; rfl⟩

end Encode

section Decode
variable {chrono : Chrono}

theorem insertField_of_not_mem {idx : StructFieldID} {value : Value}
    {fields : List (StructFieldID × Value)} (h : idx ∉ fields.map fst) :
    insertField idx value fields = fields ++ [(idx, value)] := by
  induction fields with
  | nil => rfl
  | cons g rest ih =>
    obtain ⟨hne, hrest⟩ := not_or.mp (mt mem_cons.mpr h)
    rw [insertField, if_neg (Ne.symm hne), ih hrest, cons_append]

theorem decodeFields_cons (decodeStruct : Bytes → Option (Value × Bytes)) (n : Nat)
    (acc : List (StructFieldID × Value)) (idx : StructFieldID) (category : Category)
    (rest : Bytes) :
    decodeFields chrono decodeStruct (n + 1) acc
        (encodeBE 2 idx.val ++ [category.toByte] ++ rest) =
      (decodeValue chrono decodeStruct category rest).bind fun p =>
        decodeFields chrono decodeStruct n (insertField idx p.1 acc) p.2 := by
  have hidx : idx.val < 256 ^ 2 := idx.isLt
  rw [decodeFields, append_assoc, readExact_append (length_encodeBE 2 _)]
  simp only [bind_eq_bind, bind_some]
  rw [readExact_append (length_singleton)]
  simp only [bind_some, head?_cons, Category.ofByte_toByte, decodeBE_encodeBE hidx]
  rw [show Fin.ofNat 65536 idx.val = idx from Fin.ofNat_val_eq_self idx]

theorem decodeStruct_append (depth : Nat) (d : DefinitionID) {n : Nat} {len : Bytes}
    (hlen : appendLengthAsVle n = some len) (rest : Bytes) :
    decodeStruct chrono (depth + 1) (encodeBE 2 d.val ++ len ++ rest) =
      (decodeFields chrono (decodeStruct chrono depth) n [] rest).map
        fun p => (.struct d p.1, p.2) := by
  have hd : d.val < 256 ^ 2 := d.isLt
  rw [decodeStruct, append_assoc, readExact_append (length_encodeBE 2 _)]
  simp only [bind_eq_bind, bind_some]
  rw [readVle_append hlen]
  simp only [bind_some, decodeBE_encodeBE hd]
  rw [show Fin.ofNat 65536 d.val = d from Fin.ofNat_val_eq_self d, map_eq_bind]
  rfl

/-- Reading what was written for a value, followed by anything. -/
def Reads (chrono : Chrono) (depth : Nat) (v : Value) : Prop :=
  ∀ bytes, encodeValue v = some bytes → bytes.length ≤ depth → ∀ rest,
    decodeValue chrono (decodeStruct chrono depth) v.category (bytes ++ rest) =
      if v.decodable then some (v, rest) else none

theorem decodeFields_append {depth : Nat} {fields acc : List (StructFieldID × Value)}
    {body : Bytes} (hreads : ∀ f ∈ fields, Reads chrono depth f.2)
    (hbody : encodeFields fields = some body) (hdepth : body.length ≤ depth)
    (hnodup : ((acc ++ fields).map fst).Nodup) (rest : Bytes) :
    decodeFields chrono (decodeStruct chrono depth) fields.length acc (body ++ rest) =
      if ∀ f ∈ fields, f.2.decodable = true then some (acc ++ fields, rest) else none := by
  induction fields generalizing acc body with
  | nil =>
    cases hbody
    simp [decodeFields]
  | cons f fields ih =>
    obtain ⟨value, tail, hvalue, htail, rfl⟩ := encodeFields_cons hbody
    simp only [length_append] at hdepth
    have hread := hreads f mem_cons_self value hvalue (by omega) (tail ++ rest)
    have hnot : f.1 ∉ acc.map fst := by
      rw [map_append, nodup_append] at hnodup
      exact fun hmem => hnodup.2.2 f.1 hmem f.1 (by simp) rfl
    rw [length_cons, append_assoc, append_assoc, decodeFields_cons, hread]
    by_cases hf : f.2.decodable = true
    · rw [if_pos hf, bind_some, insertField_of_not_mem hnot,
        ih (fun g hg => hreads g (mem_cons_of_mem f hg)) htail (by omega)
          (by simpa using hnodup)]
      simp only [forall_mem_cons, hf, true_and, append_assoc, singleton_append]
    · rw [if_neg hf, bind_none, if_neg fun h => hf (h f mem_cons_self)]

theorem reads (depth : Nat) (v : Value) (hdistinct : v.distinct = true) :
    Reads chrono depth v := by
  induction v using Value.induct generalizing depth with
  | scalar s =>
    intro bytes hbytes _ rest
    cases hbytes
    have hdecode := s.decodeBytes_encodeBytes chrono
    have hcategory : decodeValue chrono (decodeStruct chrono depth) s.category
        (s.encodeBytes ++ rest) =
          (readExact s.category.encodedLength (s.encodeBytes ++ rest)).bind fun p =>
            (Scalar.decodeBytes chrono p.1 s.category).bind fun t => some (.scalar t, p.2) := by
      cases s <;> rfl
    rw [Value.category, hcategory, readExact_append s.length_encodeBytes, bind_some, hdecode]
    change _ = if s.decodable = true then _ else _
    split_ifs <;> rfl
  | string b =>
    intro bytes hbytes _ rest
    obtain ⟨len, hlen, rfl⟩ := map_eq_some_iff.mp hbytes
    simp only [Value.category, decodeValue, append_assoc]
    rw [readVle_append hlen, bind_eq_bind, bind_some, readExact_append rfl]
    rfl
  | struct d fields ih =>
    intro bytes hbytes hdepth rest
    obtain ⟨hnodup, hdistinct⟩ := Value.all_struct.mp hdistinct
    obtain ⟨len, body, hlen, hbody, rfl⟩ := encodeValue_struct hbytes
    simp only [length_append, length_encodeBE] at hdepth
    obtain ⟨depth, rfl⟩ : ∃ k, depth = k + 1 := ⟨depth - 1, by omega⟩
    change decodeStruct chrono (depth + 1) _ = _
    rw [append_assoc, decodeStruct_append depth d hlen,
      decodeFields_append (fun f hf => ih f hf depth (hdistinct f hf)) hbody (by omega)
        (by simpa using of_decide_eq_true hnodup)]
    have hall : (Value.struct d fields).decodable = true ↔ ∀ f ∈ fields, f.2.decodable = true :=
      Value.all_struct.trans (and_iff_right rfl)
    rw [nil_append]
    by_cases h : ∀ f ∈ fields, f.2.decodable = true
    · rw [if_pos h, if_pos (hall.mpr h), map_some]
    · rw [if_neg h, if_neg (mt hall.mp h), map_none]

theorem asStruct_build {s : StructValue} {bytes : Bytes} (h : build s = some bytes) :
    asStruct chrono bytes = if s.toValue.decodable then some s.toValue else none := by
  have hread : Reads chrono bytes.length s.toValue := reads bytes.length s.toValue s.distinct
  have hread := hread bytes h le_rfl []
  rw [append_nil] at hread
  rw [asStruct, show decodeStruct chrono bytes.length bytes = _ from hread]
  split_ifs <;> rfl

end Decode

section Order

/-- A writing of values that goes through the fields of a struct in their order. -/
structure FieldwiseCode (β : Type) where
  value : Value → Option (List β)
  fields : List (StructFieldID × Value) → Option (List β)
  fieldHead : StructFieldID → Category → List β
  structHead : DefinitionID → Nat → List β
  fields_cons : ∀ {f rest code}, fields (f :: rest) = some code → ∃ head tail,
    value f.2 = some head ∧ fields rest = some tail ∧
      code = fieldHead f.1 f.2.category ++ head ++ tail
  value_struct : ∀ {d fs code}, value (.struct d fs) = some code → ∃ body,
    fields fs = some body ∧ code = structHead d fs.length ++ body
  fieldHead_inj : ∀ {i j a b x y}, fieldHead i a ++ x = fieldHead j b ++ y → i = j

def bytesCode : FieldwiseCode Byte where
  value := encodeValue
  fields := encodeFields
  fieldHead idx category := encodeBE 2 idx.val ++ [category.toByte]
  structHead d n := encodeBE 2 d.val ++ (appendLengthAsVle n).getD []
  fields_cons := encodeFields_cons
  value_struct h := by
    obtain ⟨len, body, hlen, hbody, rfl⟩ := encodeValue_struct h
    exact ⟨body, hbody, by rw [hlen]; rfl⟩
  fieldHead_inj {i j} _ _ _ _ h := by
    simp only [append_assoc] at h
    exact Fin.ext (encodeBE_injective i.isLt j.isLt (append_inj h (by simp)).1)

namespace FieldwiseCode
variable {β : Type} (code : FieldwiseCode β) {body : List β}

theorem swap_ne {f g : StructFieldID × Value} {rest : List (StructFieldID × Value)}
    (hne : f.1 ≠ g.1) (hbody : code.fields (f :: g :: rest) = some body) :
    code.fields (g :: f :: rest) ≠ some body := by
  intro hswap
  obtain ⟨v, tail, -, -, rfl⟩ := code.fields_cons hbody
  obtain ⟨v', tail', -, -, hcode⟩ := code.fields_cons hswap
  simp only [append_assoc] at hcode
  exact hne (code.fieldHead_inj hcode)

/-- A value that equals itself but is not plain equals one that is written otherwise. -/
theorem exists_value_ne {p : Scalar → Bool} (hscalar : ∀ {s}, p s = false → s.eq s = true →
      ∃ t, s.eq t = true ∧ code.value (.scalar s) ≠ code.value (.scalar t))
    {v : Value} (hdistinct : v.distinct = true) (hself : v.eq v = true)
    (hplain : v.plain p = false) {words : List β} (hwords : code.value v = some words) :
    ∃ w : Value, w.distinct = true ∧ v.eq w = true ∧ code.value w ≠ some words := by
  induction v using Value.induct generalizing words with
  | scalar s =>
    obtain ⟨t, heq, hne⟩ := hscalar hplain hself
    exact ⟨.scalar t, rfl, heq, fun h => hne (hwords.trans h.symm)⟩
  | string b => cases hplain
  | struct d fields ih =>
    obtain ⟨hnodup, hdistinct⟩ := Value.all_struct.mp hdistinct
    have hnodup := of_decide_eq_true hnodup
    obtain ⟨body, hbody, rfl⟩ := code.value_struct hwords
    simp only [Value.eq, decide_true, Bool.true_and, fieldsEq_iff] at hself
    have hfields : ∀ f ∈ fields, f.2.eq f.2 = true ∧ f.2.distinct = true := by
      intro f hf
      obtain ⟨other, hlookup, heq⟩ := hself f hf
      rw [lookup_of_mem hnodup hf] at hlookup
      cases hlookup
      exact ⟨heq, hdistinct f hf⟩
    -- other fields under the same keys give another struct
    suffices hothers : ∃ others : List (StructFieldID × Value),
        others.length = fields.length ∧ (others.map fst).Nodup ∧
        (∀ g ∈ others, g.2.distinct = true) ∧
        (∀ f ∈ fields, ∃ g ∈ others, g.1 = f.1 ∧ f.2.eq g.2 = true) ∧
        code.fields others ≠ some body by
      obtain ⟨others, hlength, hnodup', hdistinct', hfound, hneq⟩ := hothers
      refine ⟨.struct d others, Value.all_struct.mpr ⟨decide_eq_true hnodup', hdistinct'⟩, ?_, ?_⟩
      · simp [Value.eq, hlength, fieldsEq_of_mem hnodup' hfound]
      · intro hsame
        obtain ⟨body', hbody', heq⟩ := code.value_struct hsame
        rw [hlength] at heq
        exact hneq (hbody'.trans (congrArg some (append_cancel_left heq).symm))
    by_cases hone : fields.length ≤ 1
    · have hnot : ¬ ∀ f ∈ fields, f.2.plain p = true := by
        intro hall
        have := (Value.all_struct (d := d)).mpr ⟨by simpa using hone, hall⟩
        exact Bool.false_ne_true (hplain.symm.trans this)
      push Not at hnot
      obtain ⟨f, hf, hfp⟩ := hnot
      obtain ⟨g, rfl⟩ := length_eq_one_iff.mp (le_antisymm hone (length_pos_of_mem hf))
      obtain rfl := mem_singleton.mp hf
      obtain ⟨value, tail, hvalue, htail, rfl⟩ := code.fields_cons hbody
      obtain ⟨w, hw, heq, hneq⟩ := ih f hf (hdistinct f hf) (hfields f hf).1 (by simpa using hfp)
        hvalue
      refine ⟨[(f.1, w)], rfl, nodup_singleton _, by simpa using hw, by simpa using heq,
        fun hsame => hneq ?_⟩
      obtain ⟨value', tail', hvalue', htail', hcode⟩ := code.fields_cons hsame
      obtain rfl := some.inj (htail.symm.trans htail')
      rw [← Value.category_eq heq] at hcode
      rw [hvalue', append_cancel_left (append_cancel_right hcode)]
    · obtain ⟨f, g, rest, rfl⟩ : ∃ f g rest, fields = f :: g :: rest := by
        match fields, hone with
        | f :: g :: rest, _ => exact ⟨f, g, rest, rfl⟩
        | [_], hone => exact absurd le_rfl hone
      have hne : f.1 ≠ g.1 := fun heq => by simp [heq] at hnodup
      have hperm : (g :: f :: rest).Perm (f :: g :: rest) := List.Perm.swap f g rest
      refine ⟨g :: f :: rest, rfl, (hperm.map fst).nodup_iff.mpr hnodup,
        fun h hh => hdistinct h (hperm.subset hh), fun h hh => ⟨h, hperm.symm.subset hh, rfl,
          (hfields h hh).1⟩, code.swap_ne hne hbody⟩

end FieldwiseCode

end Order

end StructBytes

namespace StructValue
open StructBytes

def RoundTrips (chrono : Chrono) : Prop :=
  ∃ bytes v, build s = some bytes ∧ asStruct chrono bytes = some v ∧ s.toValue.eq v = true

def HasOneEncoding : Prop :=
  ∀ t : StructValue, s.toValue.eq t.toValue = true → build t = build s

theorem roundTrips_iff_decodable {chrono : Chrono} {bytes : Bytes}
    (hbuild : build s = some bytes) :
    s.RoundTrips chrono ↔ s.toValue.decodable = true ∧ s.toValue.eq s.toValue = true := by
  constructor
  · rintro ⟨bytes', v, hbuild', hread, heq⟩
    obtain rfl := some.inj (hbuild.symm.trans hbuild')
    rw [asStruct_build hbuild] at hread
    split_ifs at hread with hdecodable
    cases hread
    exact ⟨hdecodable, heq⟩
  · rintro ⟨hdecodable, heq⟩
    exact ⟨bytes, s.toValue, hbuild, by rw [asStruct_build hbuild, if_pos hdecodable], heq⟩

theorem hasOneEncoding_iff {bytes : Bytes} (hbuild : build s = some bytes)
    (hself : s.toValue.eq s.toValue = true) : s.HasOneEncoding ↔ s.toValue.canonical = true := by
  constructor
  · intro hone
    by_contra hcanonical
    rw [Bool.not_eq_true] at hcanonical
    obtain ⟨w, hw, heq, hne⟩ := bytesCode.exists_value_ne (p := Scalar.canonical)
      (fun hs hself => (Scalar.exists_ne hs hself).imp fun t ht =>
        ⟨ht.1, fun h => ht.2 (some.inj h)⟩) s.distinct hself hcanonical hbuild
    cases w with
    | struct e others => exact hne ((hone ⟨e, others, hw⟩ heq).trans hbuild)
    | scalar t | string b => simp [Value.eq] at heq
  · intro hcanonical t heq
    rw [build, build, Value.eq_of_eq hcanonical heq]

/-- A struct survives, and has one encoding, exactly where its times are read back, its scalars
equal nothing else and no struct in it has two fields to put in order. -/
theorem roundTrips_hasOneEncoding_iff (chrono : Chrono) (hshort : shortStrings s.toValue = true) :
    s.RoundTrips chrono ∧ s.HasOneEncoding ↔
      s.toValue.decodable = true ∧ s.toValue.canonical = true := by
  obtain ⟨bytes, hbuild⟩ := encodeValue_isSome s.toValue s.distinct hshort
  rw [roundTrips_iff_decodable s hbuild]
  constructor
  · rintro ⟨⟨hdecodable, hself⟩, hone⟩
    exact ⟨hdecodable, (hasOneEncoding_iff s hbuild hself).mp hone⟩
  · rintro ⟨hdecodable, hcanonical⟩
    have hself := Value.eq_self_of_canonical s.distinct hcanonical
    exact ⟨⟨hdecodable, hself⟩, (hasOneEncoding_iff s hbuild hself).mpr hcanonical⟩

def nestedString : StructValue := ⟨0, [(1, .struct 2 [(0, .string [97, 98])])], by decide⟩

theorem nestedString_one_encoding :
    nestedString.RoundTrips .standard ∧ nestedString.HasOneEncoding :=
  (roundTrips_hasOneEncoding_iff nestedString .standard (by decide)).mpr ⟨by decide, by decide⟩

def twoFields : StructValue :=
  ⟨0, [(0, .scalar (.boolean false)), (1, .scalar (.boolean true))], by decide⟩

def twoFieldsSwapped : StructValue :=
  ⟨0, [(1, .scalar (.boolean true)), (0, .scalar (.boolean false))], by decide⟩

theorem twoFields_two_encodings : shortStrings twoFields.toValue = true ∧
    twoFields.toValue.eq twoFieldsSwapped.toValue = true ∧
    build twoFields ≠ build twoFieldsSwapped := by
  decide

end StructValue

end TypeDB.Encoding
