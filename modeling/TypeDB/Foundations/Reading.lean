import TypeDB.Foundations.Bytes

/-! Reading byte strings from the front: a fixed number of bytes at a time, and numbers with the
least significant byte first. -/

namespace TypeDB.ByteString

def readExact (n : Nat) (bs : Bytes) : Option (Bytes × Bytes) :=
  if n ≤ bs.length then some (bs.take n, bs.drop n) else none

theorem readExact_append {n : Nat} {front : Bytes} (h : front.length = n) (rest : Bytes) :
    readExact n (front ++ rest) = some (front, rest) := by
  subst h
  simp [readExact]

theorem readExact_eq_some {n : Nat} {bs front rest : Bytes}
    (h : readExact n bs = some (front, rest)) : front.length = n ∧ bs = front ++ rest := by
  rw [readExact] at h
  split_ifs at h with hn
  cases h
  exact ⟨by simpa using hn, (List.take_append_drop n bs).symm⟩

def encodeLE (w n : Nat) : Bytes := (encodeBE w n).reverse

def decodeLE (bs : Bytes) : Nat := decodeBE bs.reverse

@[simp] theorem length_encodeLE (w n : Nat) : (encodeLE w n).length = w := by simp [encodeLE]

theorem decodeLE_encodeLE {w n : Nat} (h : n < 256 ^ w) : decodeLE (encodeLE w n) = n := by
  rw [decodeLE, encodeLE, List.reverse_reverse, decodeBE_encodeBE h]

theorem decodeLE_encodeLE_four {n : Nat} (h : n < 2 ^ 32) : decodeLE (encodeLE 4 n) = n :=
  decodeLE_encodeLE (h.trans_eq (by norm_num))

theorem decodeLE_lt (bs : Bytes) : decodeLE bs < 256 ^ bs.length := by
  simpa [decodeLE] using decodeBE_lt bs.reverse

end TypeDB.ByteString
