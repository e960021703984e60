import Mathlib.Data.List.Lex
import Mathlib.Order.Fin.Basic
import Mathlib.Tactic

/-! Byte strings: fixed-width big-endian numbers, and the lexicographic order of strings that
are extended by a suffix. -/

namespace TypeDB.ByteString
open Nat

abbrev Byte := Fin 256

abbrev Bytes := List Byte

-- the sizes of the machine types, for their literals
instance neZero_u8 : NeZero 256 := ⟨by decide⟩
instance neZero_u16 : NeZero 65536 := ⟨by decide⟩
instance neZero_u32 : NeZero (2 ^ 32) := ⟨by decide⟩
instance neZero_u64 : NeZero (2 ^ 64) := ⟨by decide⟩

def encodeBE : Nat → Nat → Bytes
  | 0, _ => []
  | w + 1, n => ⟨n / 256 ^ w % 256, Nat.mod_lt _ (by decide)⟩ :: encodeBE w n

def decodeBE : Bytes → Nat
  | [] => 0
  | b :: bs => b.val * 256 ^ bs.length + decodeBE bs

@[simp] theorem length_encodeBE (w n : Nat) : (encodeBE w n).length = w := by
  induction w with
  | zero => rfl
  | succ w ih => simp [encodeBE, ih]

theorem decodeBE_encodeBE_mod (w n : Nat) : decodeBE (encodeBE w n) = n % 256 ^ w := by
  induction w with
  | zero => simp [encodeBE, decodeBE, mod_one]
  | succ w ih =>
    simp only [encodeBE, decodeBE, length_encodeBE, ih]
    rw [pow_succ, mod_mul]
    ring

theorem decodeBE_encodeBE {w n : Nat} (h : n < 256 ^ w) : decodeBE (encodeBE w n) = n := by
  rw [decodeBE_encodeBE_mod, mod_eq_of_lt h]

theorem encodeBE_injective {w m n : Nat} (hm : m < 256 ^ w) (hn : n < 256 ^ w)
    (h : encodeBE w m = encodeBE w n) : m = n := by
  rw [← decodeBE_encodeBE hm, ← decodeBE_encodeBE hn, h]

theorem encodeBE_mod {v w : Nat} (hv : v ≤ w) (k : Nat) :
    encodeBE v (k % 256 ^ w) = encodeBE v k := by
  induction v with
  | zero => rfl
  | succ v ih =>
    have hdvd : 256 ^ v * 256 ∣ 256 ^ w := by
      rw [← pow_succ]
      exact pow_dvd_pow 256 hv
    simp only [encodeBE, ih (by omega), ← mod_mul_right_div_self, mod_mod_of_dvd k hdvd]

theorem decodeBE_lt (bs : Bytes) : decodeBE bs < 256 ^ bs.length := by
  induction bs with
  | nil => simp [decodeBE]
  | cons b bs ih =>
    have hb := b.isLt
    have hpos : 0 < 256 ^ bs.length := by positivity
    have hle : (b.val + 1) * 256 ^ bs.length ≤ 256 * 256 ^ bs.length :=
      mul_le_mul_right _ (by omega)
    rw [decodeBE, List.length_cons, pow_succ]
    nlinarith

theorem encodeBE_decodeBE (bs : Bytes) : encodeBE bs.length (decodeBE bs) = bs := by
  induction bs with
  | nil => rfl
  | cons b bs ih =>
    have hlt := decodeBE_lt bs
    have hpos : 0 < 256 ^ bs.length := by positivity
    have hdiv : decodeBE (b :: bs) / 256 ^ bs.length = b.val := by
      rw [decodeBE, mul_comm, mul_add_div hpos, div_eq_of_lt hlt, add_zero]
    have hmod : decodeBE (b :: bs) % 256 ^ bs.length = decodeBE bs := by
      rw [decodeBE, mul_comm, mul_add_mod, mod_eq_of_lt hlt]
    rw [List.length_cons, encodeBE, ← encodeBE_mod le_rfl (decodeBE (b :: bs)), hmod, ih]
    congr 1
    exact Fin.ext (by simp [hdiv, mod_eq_of_lt b.isLt])

theorem encodeBE_lt {w m n : Nat} (hn : n < 256 ^ w) (h : m < n) : encodeBE w m < encodeBE w n := by
  induction w generalizing m n with
  | zero => simp at hn; omega
  | succ w ih =>
    have hpos : 0 < 256 ^ w := by positivity
    have hdiv : n / 256 ^ w < 256 := by
      rw [div_lt_iff_lt_mul hpos]
      rw [pow_succ] at hn
      omega
    have hle : m / 256 ^ w ≤ n / 256 ^ w := Nat.div_le_div_right h.le
    simp only [encodeBE]
    rcases hle.lt_or_eq with hlt | heq
    · refine List.Lex.rel ?_
      rw [Fin.mk_lt_mk, mod_eq_of_lt hdiv, mod_eq_of_lt (hlt.trans hdiv)]
      exact hlt
    · have hm := div_add_mod m (256 ^ w)
      have hn' := div_add_mod n (256 ^ w)
      rw [heq] at hm
      simp only [heq]
      refine List.Lex.cons ?_
      rw [← encodeBE_mod le_rfl m, ← encodeBE_mod le_rfl n]
      exact ih (mod_lt _ hpos) (by omega)

end TypeDB.ByteString
