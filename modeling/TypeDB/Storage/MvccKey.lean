import TypeDB.Foundations.Lex
import TypeDB.Foundations.OrderedMap

/-! Versions as raw keys: a user key, the inverted sequence number and the operation. Under one
user key the raw order is newest first; across user keys it is the order of the user keys as
long as none of them is a proper prefix of another. -/

namespace TypeDB.Storage
open ByteString List

inductive StorageOperation
  | insert
  | delete
  deriving DecidableEq

def StorageOperation.bytes : StorageOperation → Bytes
  | .insert => [0]
  | .delete => [1]

/-- `StorageOperation::from`; `none` where an unrecognised byte panics. -/
def StorageOperation.from : Bytes → Option StorageOperation
  | [0] => some .insert
  | [1] => some .delete
  | _ => none

def invert (n : Nat) : Nat := 2 ^ 64 - 1 - n

def MVCCKey.operationStartNegativeOffset : Nat := 1
def MVCCKey.sequenceNumberStartNegativeOffset : Nat := MVCCKey.operationStartNegativeOffset + 8

def MVCCKey.suffix (n : Nat) (operation : StorageOperation) : Bytes :=
  encodeBE 8 (invert n) ++ operation.bytes

def MVCCKey.build (key : Bytes) (n : Nat) (operation : StorageOperation) : Bytes :=
  key ++ MVCCKey.suffix n operation

def MVCCKey.key (raw : Bytes) : Bytes :=
  raw.take (raw.length - MVCCKey.sequenceNumberStartNegativeOffset)

def MVCCKey.sequenceNumber (raw : Bytes) : Nat :=
  let start := raw.length - MVCCKey.sequenceNumberStartNegativeOffset
  invert (decodeBE ((raw.drop start).take 8))

def MVCCKey.operation (raw : Bytes) : Option StorageOperation :=
  StorageOperation.from (raw.drop (raw.length - MVCCKey.operationStartNegativeOffset))

def MVCCKey.isVisibleTo (raw : Bytes) (openSequenceNumber : Nat) : Bool :=
  decide (MVCCKey.sequenceNumber raw ≤ openSequenceNumber)

namespace MVCCKey

@[simp] theorem length_bytes (operation : StorageOperation) : operation.bytes.length = 1 := by
  cases operation <;> rfl

@[simp] theorem length_suffix (n : Nat) (operation : StorageOperation) :
    (suffix n operation).length = 9 := by simp [suffix]

theorem length_build (k : Bytes) (n : Nat) (operation : StorageOperation) :
    (build k n operation).length = k.length + 9 := by simp [build]

@[simp] theorem key_build (k : Bytes) (n : Nat) (operation : StorageOperation) :
    key (build k n operation) = k := by
  rw [key, length_build, sequenceNumberStartNegativeOffset, operationStartNegativeOffset,
    Nat.add_sub_cancel, build, take_left]

@[simp] theorem sequenceNumber_build (k : Bytes) {n : Nat} (operation : StorageOperation)
    (hn : n < 2 ^ 64) : sequenceNumber (build k n operation) = n := by
  have hinv : invert n < 256 ^ 8 := by
    rw [invert]
    omega
  rw [sequenceNumber, length_build, sequenceNumberStartNegativeOffset,
    operationStartNegativeOffset, Nat.add_sub_cancel, build, drop_left, suffix,
    take_left' (length_encodeBE 8 _), decodeBE_encodeBE hinv, invert, invert]
  omega

@[simp] theorem operation_build (k : Bytes) (n : Nat) (op : StorageOperation) :
    operation (build k n op) = some op := by
  have hdrop : (build k n op).drop ((build k n op).length - operationStartNegativeOffset) =
      op.bytes := by
    have hlen : (build k n op).length - operationStartNegativeOffset =
        (k ++ encodeBE 8 (invert n)).length := by
      rw [length_build, operationStartNegativeOffset, length_append, length_encodeBE]
      omega
    rw [hlen, build, suffix, ← append_assoc, drop_left]
  rw [operation, hdrop]
  cases op <;> rfl

theorem suffix_lt {m n : Nat} {op op' : StorageOperation} (hn : n < 2 ^ 64) (h : m < n) :
    suffix n op < suffix m op' := by
  have henc : encodeBE 8 (invert n) < encodeBE 8 (invert m) := by
    refine encodeBE_lt ?_ ?_
    · rw [invert]
      omega
    · rw [invert, invert]
      omega
  have hapart : Lex.Apart (encodeBE 8 (invert n)) (encodeBE 8 (invert m)) := by
    have hlen : (encodeBE 8 (invert n)).length = (encodeBE 8 (invert m)).length := by simp
    exact ⟨fun hp => henc.ne (hp.eq_of_length hlen), fun hp => henc.ne' (hp.eq_of_length hlen.symm)⟩
  exact hapart.append_lt.mpr henc

end MVCCKey

/-- The pairs of a keyspace, all written through `MVCCKey::build` under user keys of which none
is a proper prefix of another, each version of a key at most once. -/
structure VersionStore where
  raw : OrderedMap Bytes Bytes
  built : ∀ p ∈ raw.entries, ∃ k n op, n < 2 ^ 64 ∧ p.1 = MVCCKey.build k n op
  prefixFree : ∀ p ∈ raw.entries, ∀ q ∈ raw.entries,
    MVCCKey.key p.1 <+: MVCCKey.key q.1 → MVCCKey.key p.1 = MVCCKey.key q.1
  single : ∀ p ∈ raw.entries, ∀ q ∈ raw.entries, MVCCKey.key p.1 = MVCCKey.key q.1 →
    MVCCKey.sequenceNumber p.1 = MVCCKey.sequenceNumber q.1 → p = q

namespace VersionStore
open MVCCKey
variable (store : VersionStore)

def After (p q : Bytes × Bytes) : Prop :=
  key p.1 < key q.1 ∨ key p.1 = key q.1 ∧ sequenceNumber q.1 < sequenceNumber p.1

theorem ordered : store.raw.entries.Pairwise After := by
  refine store.raw.sorted.imp_of_mem ?_
  intro p q hp hq hlt
  obtain ⟨k, n, op, hn, hpk⟩ := store.built p hp
  obtain ⟨k', n', op', hn', hqk⟩ := store.built q hq
  have hkp : key p.1 = k := by rw [hpk, key_build]
  have hkq : key q.1 = k' := by rw [hqk, key_build]
  have hsp : sequenceNumber p.1 = n := by rw [hpk, sequenceNumber_build _ _ hn]
  have hsq : sequenceNumber q.1 = n' := by rw [hqk, sequenceNumber_build _ _ hn']
  rw [After, hkp, hkq, hsp, hsq]
  by_cases hkk : k = k'
  · subst hkk
    refine .inr ⟨rfl, ?_⟩
    rcases lt_trichotomy n n' with hnn | rfl | hnn
    · rw [hpk, hqk, build, build, Lex.append_lt_append_left_iff] at hlt
      exact absurd hlt (suffix_lt hn' hnn).asymm
    · have heq := store.single p hp q hq (hkp.trans hkq.symm) (hsp.trans hsq.symm)
      rw [heq] at hlt
      exact absurd hlt (lt_irrefl _)
    · exact hnn
  · left
    have hpre := store.prefixFree p hp q hq
    have hpre' := store.prefixFree q hq p hp
    rw [hkp, hkq] at hpre hpre'
    have hapart : Lex.Apart k k' := ⟨fun h => hkk (hpre h), fun h => hkk (hpre' h).symm⟩
    rw [hpk, hqk, build, build] at hlt
    exact hapart.append_lt.mp hlt

def Stores (k : Bytes) : Prop := ∃ p ∈ store.raw.entries, key p.1 = k

structure Newest (s : Nat) (k : Bytes) (p : Bytes × Bytes) : Prop where
  mem : p ∈ store.raw.entries
  key_eq : key p.1 = k
  visible : sequenceNumber p.1 ≤ s
  newest : ∀ q ∈ store.raw.entries, key q.1 = k → sequenceNumber q.1 ≤ s →
    sequenceNumber q.1 ≤ sequenceNumber p.1

def Sees (s : Nat) (k v : Bytes) : Prop :=
  ∃ p, store.Newest s k p ∧ operation p.1 = some .insert ∧ p.2 = v

end VersionStore
end TypeDB.Storage
