import Mathlib.Data.List.Sort
import Mathlib.Tactic

/-! Sorted merges: what a sorted list answers to calls that take its head or pass over a lower
part of it, arrangements of one collection that differ only in how ties are ordered, and queues
that give back a least element. -/

namespace TypeDB.Merge
open List

inductive Call (κ : Type)
  | next
  | seek (key : κ)

variable {α κ : Type}

/-- What the calls return when `l` is all there is to come and a seek passes over what is
`below` its target. -/
def answers (below : κ → α → Bool) : List α → List (Call κ) → List (Option α)
  | _, [] => []
  | l, .next :: calls => l.head? :: answers below l.tail calls
  | l, .seek key :: calls => answers below (l.dropWhile (below key)) calls

/-- A queue whose `pop` takes out an element that none of the others comes before. -/
structure Queue (ι : Type) (first : ι → ι → Prop) where
  Heap : Type
  drain : Heap → List ι
  collect : List ι → Heap
  push : Heap → ι → Heap
  pop : Heap → Option (ι × Heap)
  drain_collect : ∀ l, (drain (collect l)).Perm l
  drain_push : ∀ h a, (drain (push h a)).Perm (a :: drain h)
  pop_none : ∀ h, pop h = none → drain h = []
  pop_some : ∀ h a h', pop h = some (a, h') →
    (drain h).Perm (a :: drain h') ∧ ∀ b ∈ drain h', first a b

section Order
variable (cmp : α → α → Ordering)

def Sorted (l : List α) : Prop := l.Pairwise fun a b => (cmp a b).isLE

def Lower (p : α → Bool) : Prop := ∀ a b, (cmp a b).isLE → p b → p a

/-- The elements of the two lists lie in the same places of the order. -/
def Alike (l m : List α) : Prop := ∀ p, Lower cmp p → l.countP p = m.countP p

end Order

section Alike
variable {cmp : α → α → Ordering} {l m : List α} {a : α} {p : α → Bool}

theorem alike_of_perm (h : l.Perm m) : Alike cmp l m := fun p _ => h.countP_eq p

theorem Lower.and {q : α → Bool} (hp : Lower cmp p) (hq : Lower cmp q) :
    Lower cmp fun a => p a && q a := by
  intro a b hab hb
  simp only [Bool.and_eq_true] at hb ⊢
  exact ⟨hp a b hab hb.1, hq a b hab hb.2⟩

theorem Alike.length_eq (h : Alike cmp l m) : l.length = m.length := by
  simpa using h (fun _ => true) fun _ _ _ _ => rfl

theorem Alike.nil_iff (h : Alike cmp l m) : l = [] ↔ m = [] := by
  rw [← length_eq_zero_iff, h.length_eq, length_eq_zero_iff]

theorem countP_of_least (hp : Lower cmp p) (hleast : ∀ b ∈ l, (cmp a b).isLE) :
    l.countP p = (a :: l).countP p - 1 := by
  by_cases ha : p a
  · simp [ha]
  · have hzero : l.countP p = 0 := by
      rw [countP_eq_zero]
      intro b hb hpb
      exact ha (hp a b (hleast b hb) hpb)
    simp [ha, hzero]

theorem Alike.take {b : α} (h : Alike cmp (a :: l) (b :: m))
    (ha : ∀ x ∈ l, (cmp a x).isLE) (hb : ∀ x ∈ m, (cmp b x).isLE) : Alike cmp l m := by
  intro p hp
  rw [countP_of_least hp ha, countP_of_least hp hb, h p hp]

theorem countP_filter_not (q : α → Bool) (l : List α) :
    (l.filter fun a => !q a).countP p = l.countP p - l.countP fun a => q a && p a := by
  induction l with
  | nil => rfl
  | cons a l ih =>
    have hle : (l.countP fun a => q a && p a) ≤ l.countP p :=
      countP_mono_left fun a _ h => (Bool.and_eq_true _ _ ▸ h).2
    cases hq : q a <;> cases hp : p a <;> (simp [hq, hp, ih]; try omega)

theorem Alike.filter_not {q : α → Bool} (h : Alike cmp l m) (hq : Lower cmp q) :
    Alike cmp (l.filter fun a => !q a) (m.filter fun a => !q a) := by
  intro p hp
  rw [countP_filter_not, countP_filter_not, h p hp, h _ (hq.and hp)]

theorem Sorted.dropWhile_eq (hs : Sorted cmp l) (hp : Lower cmp p) :
    l.dropWhile p = l.filter fun a => !p a := by
  induction l with
  | nil => rfl
  | cons a l ih =>
    obtain ⟨hhead, htail⟩ := pairwise_cons.mp hs
    by_cases ha : p a
    · simpa [ha] using ih htail
    · have hall : ∀ b ∈ l, p b = false := fun b hb =>
        Bool.eq_false_iff.mpr fun h => ha (hp a b (hhead b hb) h)
      rw [dropWhile_cons_of_neg ha, filter_cons_of_pos (by simpa using ha),
        filter_eq_self.mpr fun b hb => by simp [hall b hb]]

end Alike

section Arrange
variable (cmp : α → α → Ordering)

def arrange (l : List α) : List α := l.insertionSort fun a b => (cmp a b).isLE

theorem arrange_perm (l : List α) : (arrange cmp l).Perm l := perm_insertionSort _ l

theorem sorted_arrange [Std.TransCmp cmp] (l : List α) : Sorted cmp (arrange cmp l) := by
  have htrans : IsTrans α fun a b => (cmp a b).isLE := ⟨fun _ _ _ => Std.TransCmp.isLE_trans⟩
  have htotal : Std.Total fun a b => ((cmp a b).isLE : Prop) := by
    refine ⟨fun a b => ?_⟩
    have hswap : cmp b a = (cmp a b).swap := Std.OrientedCmp.eq_swap
    rw [hswap]
    cases cmp a b <;> simp
  exact pairwise_insertionSort _ l

end Arrange

instance transCmp_comap {ι : Type} (key : ι → α) (cmp : α → α → Ordering) [Std.TransCmp cmp] :
    Std.TransCmp fun a b => cmp (key a) (key b) where
  eq_swap := Std.OrientedCmp.eq_swap
  isLE_trans := Std.TransCmp.isLE_trans

def Queue.ofList {ι : Type} (key : ι → α) (cmp : α → α → Ordering) [Std.TransCmp cmp] :
    Queue ι fun a b => (cmp (key a) (key b)).isLE where
  Heap := List ι
  drain := id
  collect := id
  push l a := a :: l
  pop l :=
    match arrange (fun a b => cmp (key a) (key b)) l with
    | [] => none
    | a :: rest => some (a, rest)
  drain_collect _ := .refl _
  drain_push _ _ := .refl _
  pop_none l h := by
    have hperm := arrange_perm (fun a b => cmp (key a) (key b)) l
    split at h
    · rename_i hnil
      exact List.nil_perm.mp (hnil ▸ hperm)
    · cases h
  pop_some l a rest h := by
    have hperm := arrange_perm (fun a b => cmp (key a) (key b)) l
    have hsorted := sorted_arrange (fun a b => cmp (key a) (key b)) l
    split at h
    · cases h
    · rename_i hcons
      cases h
      rw [hcons] at hperm hsorted
      exact ⟨hperm.symm, (List.pairwise_cons.mp hsorted).1⟩

end TypeDB.Merge
