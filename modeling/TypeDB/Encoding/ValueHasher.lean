import TypeDB.Foundations.Lex
import TypeDB.Foundations.OrderedMap

/-! `HashedID`: values too long for their id are stored under a hash and a tail byte that tells
colliding values apart. The scan that finds a value or a new tail, and which tail it ends on. -/

namespace TypeDB.Encoding
open ByteString List Option

abbrev Contents := OrderedMap Bytes Bytes

inductive Either (α : Type)
  | first (existing : α)
  | second (allocated : α)
  deriving DecidableEq

def Either.map {α β : Type} (f : α → β) : Either α → Either β
  | .first a => .first (f a)
  | .second a => .second (f a)

/-- What `KeyRange::new_within` reads. -/
def Contents.within (contents : Contents) (key : Bytes) : List (Bytes × Bytes) :=
  contents.entries.filter fun p => key.isPrefixOf p.1

namespace HashedID

def hashDisambiguatorByteIsHashFlag : Nat := 0b10000000

def writeHash (hashLength : Nat) (hasher : Bytes → UInt64) (value : Bytes) : Bytes :=
  (encodeBE 8 (hasher value).toNat).take hashLength

/-- The loop of `disambiguate`; the tail bytes are numbers below 256. `none` is the panic over
too many collisions, or an index past the end of a key. -/
def disambiguateFrom (tailByteIndex : Nat) (value : Bytes) :
    List (Bytes × Bytes) → Nat → Option Nat → Option (Either Nat)
  | [], nextTail, firstUnusedTail => some (.second (firstUnusedTail.getD nextTail))
  | (key, stored) :: rest, nextTail, firstUnusedTail => do
    let keyTail ← key[tailByteIndex]?
    if stored = value then some (.first keyTail.val)
    else
      let firstUnusedTail := if nextTail ≠ keyTail.val then some nextTail else firstUnusedTail
      if nextTail = 255 then none
      else disambiguateFrom tailByteIndex value rest (nextTail + 1) firstUnusedTail

def disambiguate (contents : Contents) (keyWithoutTailByte value : Bytes) :
    Option (Either Nat) :=
  disambiguateFrom keyWithoutTailByte.length value (contents.within keyWithoutTailByte)
    hashDisambiguatorByteIsHashFlag none

def concatHashAndTail (hash : Bytes) (tail : Nat) : Bytes := hash ++ [Fin.ofNat 256 tail]

def findExistingOrNextDisambiguatedHash (hashLength : Nat) (hasher : Bytes → UInt64)
    (contents : Contents) (keyWithoutHash value : Bytes) : Option (Either Bytes) := do
  let hash := writeHash hashLength hasher value
  let tail ← disambiguate contents (keyWithoutHash ++ hash) value
  some (tail.map (concatHashAndTail hash))

end HashedID

section Tails

/-- The last tail the scan counts to that is not the one it meets there. -/
def lastUnused : List Nat → Nat → Option Nat → Option Nat
  | [], _, unused => unused
  | t :: ts, n, unused => lastUnused ts (n + 1) (if n ≠ t then some n else unused)

def allocated (ts : List Nat) (n : Nat) : Nat := (lastUnused ts n none).getD (n + ts.length)

variable {ts : List Nat} {n t : Nat}

theorem lastUnused_concat (ts : List Nat) (t n : Nat) (unused : Option Nat) :
    lastUnused (ts ++ [t]) n unused =
      if n + ts.length ≠ t then some (n + ts.length) else lastUnused ts n unused := by
  induction ts generalizing n unused with
  | nil => rfl
  | cons s ts ih =>
    rw [cons_append, lastUnused, ih, lastUnused, length_cons]
    have hlen : n + 1 + ts.length = n + (ts.length + 1) := by omega
    rw [hlen]

theorem allocated_concat_of_ne (h : n + ts.length ≠ t) :
    allocated (ts ++ [t]) n = n + ts.length := by
  rw [allocated, lastUnused_concat, if_pos h, getD_some]

theorem lastUnused_lt {c : Nat} (h : lastUnused ts n none = some c) : c < n + ts.length := by
  induction ts using List.reverseRecOn with
  | nil => cases h
  | append_singleton ts t ih =>
    rw [lastUnused_concat] at h
    rw [length_append, length_singleton]
    split_ifs at h with hne
    · cases h
      omega
    · have := ih h
      omega

theorem allocated_le (ts : List Nat) (n : Nat) : allocated ts n ≤ n + ts.length := by
  rw [allocated]
  cases h : lastUnused ts n none with
  | none => exact le_rfl
  | some c => exact (lastUnused_lt h).le

theorem allocated_not_mem (hs : ts.Pairwise (· < ·)) (hlt : ∀ t ∈ ts, t < n + ts.length) :
    allocated ts n ∉ ts := by
  induction ts using List.reverseRecOn with
  | nil => simp
  | append_singleton ts t ih =>
    obtain ⟨hts, -, hcross⟩ := pairwise_append.mp hs
    have ht : ∀ s ∈ ts, s < t := fun s hs => hcross s hs t (mem_singleton.mpr rfl)
    by_cases h : n + ts.length = t
    · -- the last tail is where it should be: the scan ends as the one before it does
      have hfresh := ih hts fun s hs => h ▸ ht s hs
      intro hmem
      rw [allocated, lastUnused_concat, if_neg (not_not.mpr h)] at hmem
      rw [allocated] at hfresh
      cases hu : lastUnused ts n none with
      | none =>
        rw [hu, getD_none] at hmem
        exact (hlt _ hmem).false
      | some c =>
        rw [hu, getD_some] at hmem hfresh
        rcases mem_append.mp hmem with hc | hc
        · exact hfresh hc
        · rw [mem_singleton, ← h] at hc
          exact (lastUnused_lt hu).ne hc
    · rw [allocated_concat_of_ne h]
      intro hmem
      have hle : t < n + ts.length := by
        have := hlt t (mem_append_right _ (mem_singleton.mpr rfl))
        rw [length_append, length_singleton] at this
        omega
      rcases mem_append.mp hmem with hc | hc
      · exact (ht _ hc).not_gt hle
      · exact h (mem_singleton.mp hc)

/-- What is allocated is unused exactly when the tail counted to at the end is unused or the
greatest in use. -/
theorem allocated_not_mem_iff (hs : ts.Pairwise (· < ·)) :
    allocated ts n ∉ ts ↔ (n + ts.length - 1 ∈ ts → ∀ t ∈ ts, t ≤ n + ts.length - 1) := by
  induction ts using List.reverseRecOn with
  | nil => simp
  | append_singleton ts t _ =>
    obtain ⟨-, -, hcross⟩ := pairwise_append.mp hs
    have ht : ∀ s ∈ ts, s < t := fun s hs => hcross s hs t (mem_singleton.mpr rfl)
    have hlast : n + (ts ++ [t]).length - 1 = n + ts.length := by simp
    have hmem : t ∈ ts ++ [t] := mem_append_right _ (mem_singleton.mpr rfl)
    have hle : ∀ s ∈ ts ++ [t], s ≤ t := by
      intro s hs
      rcases mem_append.mp hs with hs | hs
      · exact (ht s hs).le
      · exact (mem_singleton.mp hs).le
    rw [hlast]
    rcases lt_trichotomy (n + ts.length) t with hlt | heq | hgt
    · rw [allocated_concat_of_ne hlt.ne]
      exact ⟨fun h hin => absurd hin h, fun h hin => (h hin t hmem).not_gt hlt⟩
    · refine iff_of_true (allocated_not_mem hs fun s hs => ?_) fun _ s hs => heq ▸ hle s hs
      have := hle s hs
      rw [length_append, length_singleton]
      omega
    · refine iff_of_true (allocated_not_mem hs fun s hs => ?_) fun _ s hs => (hle s hs).trans hgt.le
      have := hle s hs
      rw [length_append, length_singleton]
      omega

end Tails

section Scan
variable {tailByteIndex n : Nat} {value : Bytes} {l : List (Bytes × Bytes)} {unused : Option Nat}

def tailsAt (tailByteIndex : Nat) (l : List (Bytes × Bytes)) : List Nat :=
  l.map fun p => (p.1.getD tailByteIndex 0).val

theorem getElem?_tail {key : Bytes} (h : tailByteIndex < key.length) :
    key[tailByteIndex]? = some (key.getD tailByteIndex 0) := by
  simp [List.getD, getElem?_eq_getElem h]

open HashedID

theorem disambiguateFrom_new (hlen : ∀ p ∈ l, tailByteIndex < p.1.length)
    (hnot : ∀ p ∈ l, p.2 ≠ value) (hn : n ≤ 255) :
    disambiguateFrom tailByteIndex value l n unused =
      if n + l.length ≤ 255 then
        some (.second ((lastUnused (tailsAt tailByteIndex l) n unused).getD (n + l.length)))
      else none := by
  induction l generalizing n unused with
  | nil => simp [disambiguateFrom, lastUnused, tailsAt, hn]
  | cons p l ih =>
    obtain ⟨key, stored⟩ := p
    have hkey := getElem?_tail (hlen _ mem_cons_self)
    have hne : stored ≠ value := hnot _ mem_cons_self
    simp only [disambiguateFrom, hkey, bind_eq_bind, bind_some, if_neg hne]
    by_cases hmax : n = 255
    · rw [if_pos hmax, if_neg (by rw [length_cons]; omega)]
    · rw [if_neg hmax, ih (fun p hp => hlen p (mem_cons_of_mem _ hp))
        (fun p hp => hnot p (mem_cons_of_mem _ hp)) (by omega), length_cons,
        show n + 1 + l.length = n + (l.length + 1) by omega]
      rfl

theorem disambiguateFrom_stored {key : Bytes} (hlen : ∀ p ∈ l, tailByteIndex < p.1.length)
    (hmem : (key, value) ∈ l) (hsingle : ∀ k, (k, value) ∈ l → k = key) (hn : n ≤ 255) :
    disambiguateFrom tailByteIndex value l n unused =
      if n + (l.takeWhile fun p => decide (p.2 ≠ value)).length ≤ 255 then
        some (.first (key.getD tailByteIndex 0).val)
      else none := by
  induction l generalizing n unused with
  | nil => cases hmem
  | cons p l ih =>
    obtain ⟨key', stored⟩ := p
    have hkey' := getElem?_tail (hlen _ mem_cons_self)
    simp only [disambiguateFrom, hkey', bind_eq_bind, bind_some]
    by_cases hstored : stored = value
    · subst hstored
      obtain rfl := hsingle key' mem_cons_self
      rw [if_pos rfl, takeWhile_cons_of_neg (by simp), if_pos (by simpa using hn)]
    · have hl : (key, value) ∈ l := (mem_cons.mp hmem).resolve_left fun h =>
        hstored (congrArg Prod.snd h).symm
      rw [if_neg hstored, takeWhile_cons_of_pos (by simpa using hstored), length_cons]
      by_cases hmax : n = 255
      · rw [if_pos hmax, if_neg (by omega)]
      · rw [if_neg hmax, ih (fun p hp => hlen p (mem_cons_of_mem _ hp)) hl
          (fun k hk => hsingle k (mem_cons_of_mem _ hk)) (by omega)]
        exact if_congr (by omega) rfl rfl

end Scan

end TypeDB.Encoding
