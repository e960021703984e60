import TypeDB.Foundations.Merge

/-! `KMergeBy` merges sorted iterators through a heap and keeps the one it last returned from
outside of it. An inner iterator is the list of what it still has; a panic is the outcome
`none`. -/

namespace TypeDB.Common
open List Merge Option Std

variable {α κ : Type}

structure Peekable (α : Type) where
  iter : List α
  item : Option α

namespace Peekable

def peek (it : Peekable α) : Peekable α :=
  match it.item with
  | some _ => it
  | none => ⟨it.iter.tail, it.iter.head?⟩

def next (it : Peekable α) : Option α × Peekable α :=
  match it.item with
  | some item => (some item, { it with item := none })
  | none => (it.iter.head?, { it with iter := it.iter.tail })

def seek (compareKey : α → κ → Ordering) (it : Peekable α) (key : κ) : Option (Peekable α) :=
  let sought := it.iter.dropWhile fun a => compareKey a key == .lt
  match it.item with
  | some item =>
    match compareKey item key with
    | .lt => some ⟨sought, none⟩
    | .eq => some it
    | .gt => none
  | none => some ⟨sought, none⟩

def remaining (it : Peekable α) : List α := it.item.toList ++ it.iter

@[simp]
theorem remaining_peek (it : Peekable α) : it.peek.remaining = it.remaining := by
  obtain ⟨_ | ⟨a, l⟩, _ | x⟩ := it <;> rfl

@[simp]
theorem item_peek (it : Peekable α) : it.peek.item = it.remaining.head? := by
  obtain ⟨_ | ⟨a, l⟩, _ | x⟩ := it <;> rfl

@[simp]
theorem next_fst (it : Peekable α) : it.next.1 = it.remaining.head? := by
  obtain ⟨_ | ⟨a, l⟩, _ | x⟩ := it <;> rfl

@[simp]
theorem remaining_next (it : Peekable α) : it.next.2.remaining = it.remaining.tail := by
  obtain ⟨_ | ⟨a, l⟩, _ | x⟩ := it <;> rfl

end Peekable

/-- An iterator the heap can compare: it has been peeked and is not exhausted. -/
structure PeekWrapper (α : Type) where
  iter : Peekable α
  peeked : iter.item.isSome

namespace PeekWrapper
variable {it : Peekable α}

def of (it : Peekable α) : Option (PeekWrapper α) :=
  if h : it.item.isSome then some ⟨it, h⟩ else none

def first (cmp : α → α → Ordering) (a b : PeekWrapper α) : Prop :=
  (cmp (a.iter.item.get a.peeked) (b.iter.item.get b.peeked)).isLE

theorem remaining_eq (w : PeekWrapper α) :
    w.iter.remaining = w.iter.item.get w.peeked :: w.iter.iter := by
  obtain ⟨⟨l, _ | x⟩, h⟩ := w
  · cases h
  · rfl

theorem of_peek_eq_none (h : it.remaining = []) : of it.peek = none := by
  simp [of, h]

theorem of_peek_eq_some {a : α} {l : List α} (h : it.remaining = a :: l) :
    ∃ w, of it.peek = some w ∧ w.iter = it.peek := by
  have hsome : it.peek.item.isSome := by simp [h]
  exact ⟨⟨it.peek, hsome⟩, dif_pos hsome, rfl⟩

theorem iter_of {w : PeekWrapper α} (h : of it = some w) : w.iter = it := by
  unfold of at h
  split at h
  · exact congrArg PeekWrapper.iter (some.inj h).symm
  · cases h

theorem remaining_filterMap (its : List (Peekable α)) :
    ((its.filterMap fun it => of it.peek).flatMap fun w => w.iter.remaining) =
      its.flatMap Peekable.remaining := by
  induction its with
  | nil => rfl
  | cons it its ih =>
    cases hr : it.remaining with
    | nil => simp [of_peek_eq_none hr, ih, hr]
    | cons a l =>
      obtain ⟨w, hw, hiter⟩ := of_peek_eq_some hr
      simp [hw, ih, hiter]

end PeekWrapper

inductive State
  | init
  | used
  | ready
  | done
  deriving DecidableEq

structure KMergeBy {cmp : α → α → Ordering}
    (queue : Queue (PeekWrapper α) (PeekWrapper.first cmp)) where
  iterators : queue.Heap
  nextIterator : Option (Peekable α)
  state : State

namespace KMergeBy
variable {cmp : α → α → Ordering} {queue : Queue (PeekWrapper α) (PeekWrapper.first cmp)}
  (compareKey : α → κ → Ordering)

def new (queue : Queue (PeekWrapper α) (PeekWrapper.first cmp)) (iters : List (List α)) :
    KMergeBy queue :=
  let peekables : List (Peekable α) := iters.map fun iter => ⟨iter, none⟩
  ⟨queue.collect (peekables.filterMap fun it => PeekWrapper.of it.peek), none, .init⟩

variable (m : KMergeBy queue)

def findNextState : KMergeBy queue :=
  match queue.pop m.iterators with
  | none => { m with state := .done }
  | some (iterator, rest) => ⟨rest, some iterator.iter, .ready⟩

def returnLastToHeap : Option (KMergeBy queue) := do
  let lastIterator ← m.nextIterator
  match PeekWrapper.of lastIterator.peek with
  | none => some { m with nextIterator := none }
  | some wrapper =>
    some { m with iterators := queue.push m.iterators wrapper, nextIterator := none }

/-- The call `next` makes of itself, always in state `Ready` or `Done`. -/
def nextFound : Option (Option α × KMergeBy queue) :=
  match m.state with
  | .ready => do
    let it ← m.nextIterator
    let (item, it) := it.next
    some (item, { m with nextIterator := some it, state := .used })
  | _ => some (none, m)

def next : Option (Option α × KMergeBy queue) :=
  match m.state with
  | .init => m.findNextState.nextFound
  | .used => do (← m.returnLastToHeap).findNextState.nextFound
  | .ready => m.nextFound
  | .done => m.nextFound

/-- What `seek` does to each iterator: it is peeked and moved if the item is below the target. -/
def seekBelow (key : κ) (it : Peekable α) : Option (Peekable α) :=
  let it := it.peek
  match it.item with
  | some item => if compareKey item key = .lt then it.seek compareKey key else some it
  | none => some it

def seek (key : κ) : Option (KMergeBy queue) := do
  let m ← if m.state = .used then m.returnLastToHeap.map findNextState else some m
  let nextIterator ← match m.nextIterator with
    | some it => (seekBelow compareKey key it).map some
    | none => some none
  let sought ← (queue.drain m.iterators).mapM fun wrapper => seekBelow compareKey key wrapper.iter
  some ⟨queue.collect (sought.filterMap fun it => PeekWrapper.of it.peek), nextIterator, .used⟩

def run : KMergeBy queue → List (Call κ) → Option (List (Option α))
  | _, [] => some []
  | m, .next :: calls => do
    let (item, m) ← m.next
    let items ← m.run calls
    some (item :: items)
  | m, .seek key :: calls => do
    let m ← m.seek compareKey key
    m.run calls

def rest : List α :=
  (m.nextIterator.elim [] Peekable.remaining) ++
    (queue.drain m.iterators).flatMap fun w => w.iter.remaining

def Ordered : Prop :=
  (∀ it ∈ m.nextIterator, Sorted cmp it.remaining) ∧
    ∀ w ∈ queue.drain m.iterators, Sorted cmp w.iter.remaining

/-- The states between two calls from which `next` does not panic. -/
def Live : Prop :=
  m.Ordered ∧ match m.state with
    | .init => m.nextIterator = none
    | .used => m.nextIterator.isSome
    | .done => m.nextIterator = none ∧ m.rest = []
    | .ready => False

/-- The iterator last returned from is to be put back, but there is none. -/
def Stuck : Prop := m.state = .used ∧ m.nextIterator = none

section Steps
variable {compareKey : α → κ → Ordering} {m m' : KMergeBy queue} {calls : List (Call κ)}
  {outs : List (Option α)} {key : κ}

theorem run_next {item : Option α} (h : m.next = some (item, m')) :
    m.run compareKey (.next :: calls) = (m'.run compareKey calls).map (item :: ·) := by
  rw [run, h]
  cases hr : m'.run compareKey calls <;> simp [hr]

theorem run_seek (h : m.seek compareKey key = some m') :
    m.run compareKey (.seek key :: calls) = m'.run compareKey calls := by
  rw [run, h]
  rfl

theorem Stuck.next (h : m.Stuck) : m.next = none := by
  simp [KMergeBy.next, h.1, returnLastToHeap, h.2]

theorem Stuck.seek (h : m.Stuck) : m.seek compareKey key = none := by
  simp [KMergeBy.seek, h.1, returnLastToHeap, h.2]

theorem Stuck.run_isSome (h : m.Stuck) : (m.run compareKey calls).isSome ↔ calls = [] := by
  cases calls with
  | nil => simp [run]
  | cons call calls => cases call <;> simp [run, h.next, h.seek]

theorem sorted_of_perm_flatMap {ws ws' : List (PeekWrapper α)} (h : ws.Perm ws')
    (hs : ∀ w ∈ ws, Sorted cmp w.iter.remaining) : ∀ w ∈ ws', Sorted cmp w.iter.remaining :=
  fun w hw => hs w (h.mem_iff.mpr hw)

theorem returnLastToHeap_spec {it : Peekable α} (hs : m.Ordered) (hit : m.nextIterator = some it) :
    ∃ m', m.returnLastToHeap = some m' ∧ m'.nextIterator = none ∧ m'.state = m.state ∧
      m'.Ordered ∧ m'.rest.Perm m.rest := by
  obtain ⟨hnext, hheap⟩ := hs
  cases hr : it.remaining with
  | nil =>
    refine ⟨{ m with nextIterator := none }, ?_, rfl, rfl, ⟨by simp, hheap⟩, ?_⟩
    · simp [returnLastToHeap, hit, PeekWrapper.of_peek_eq_none hr]
    · simp [rest, hit, hr]
  | cons a l =>
    obtain ⟨w, hw, hiter⟩ := PeekWrapper.of_peek_eq_some hr
    have hpush := queue.drain_push m.iterators w
    refine ⟨{ m with iterators := queue.push m.iterators w, nextIterator := none }, ?_, rfl, rfl,
      ⟨by simp, ?_⟩, ?_⟩
    · simp [returnLastToHeap, hit, hw]
    · apply sorted_of_perm_flatMap hpush.symm
      intro v hv
      rcases mem_cons.mp hv with rfl | hv
      · rw [hiter, Peekable.remaining_peek]
        exact hnext it hit
      · exact hheap v hv
    · have := hpush.flatMap_right fun w => w.iter.remaining
      simpa [rest, hit, hiter] using this

section Total
variable [TransCmp cmp]

theorem isLE_head {a b : α} {l : List α} (hs : Sorted cmp (a :: l)) (hb : b ∈ a :: l) :
    (cmp a b).isLE := by
  rcases mem_cons.mp hb with rfl | hb
  · simp [ReflCmp.compare_self]
  · exact (pairwise_cons.mp hs).1 b hb

theorem findNextState_spec (hs : m.Ordered) (hnone : m.nextIterator = none) :
    (m.rest = [] ∧ m.findNextState = { m with state := .done }) ∨
      ∃ it heap a l, m.findNextState = ⟨heap, some it, .ready⟩ ∧ it.remaining = a :: l ∧
        m.findNextState.Ordered ∧ m.rest.Perm m.findNextState.rest ∧
        ∀ b ∈ m.findNextState.rest, (cmp a b).isLE := by
  cases hpop : queue.pop m.iterators with
  | none =>
    left
    simp [rest, hnone, queue.pop_none _ hpop, findNextState, hpop]
  | some popped =>
    obtain ⟨w, heap⟩ := popped
    obtain ⟨hperm, hfirst⟩ := queue.pop_some _ _ _ hpop
    have hsorted := sorted_of_perm_flatMap hperm hs.2
    have hfound : m.findNextState = ⟨heap, some w.iter, .ready⟩ := by simp [findNextState, hpop]
    have hw := hsorted w mem_cons_self
    rw [w.remaining_eq] at hw
    refine .inr ⟨w.iter, heap, _, _, hfound, w.remaining_eq, ?_, ?_, ?_⟩ <;> rw [hfound]
    · refine ⟨fun it hit => ?_, fun v hv => hsorted v (mem_cons_of_mem _ hv)⟩
      obtain rfl := mem_some_iff.mp hit
      exact hsorted w mem_cons_self
    · have := hperm.flatMap_right fun w => w.iter.remaining
      simpa [rest, hnone] using this
    · intro b hb
      rcases mem_append.mp hb with hb | hb
      · rw [elim_some, w.remaining_eq] at hb
        exact isLE_head hw hb
      · -- the heap compared the heads, and each iterator is sorted
        obtain ⟨v, hv, hbv⟩ := mem_flatMap.mp hb
        have hvs := hsorted v (mem_cons_of_mem _ hv)
        rw [v.remaining_eq] at hvs hbv
        exact TransCmp.isLE_trans (hfirst v hv) (isLE_head hvs hbv)

/-- What `next` has returned is a least element, and none only at the end. -/
structure Took (m : KMergeBy queue) (item : Option α) (m' : KMergeBy queue) : Prop where
  live : m'.Live
  state : m'.state ≠ .init
  perm : m.rest.Perm (item.toList ++ m'.rest)
  ended : item = none → m'.rest = []
  le : ∀ a ∈ item, ∀ b ∈ m'.rest, (cmp a b).isLE

theorem nextFound_spec (hs : m.Ordered) (hnone : m.nextIterator = none) :
    ∃ item m', m.findNextState.nextFound = some (item, m') ∧ m.Took item m' := by
  rcases findNextState_spec hs hnone with ⟨hnil, hdone⟩ | ⟨it, heap, a, l, hfound, hrem, ho, hp, hle⟩
  · refine ⟨none, { m with state := .done }, ?_, ⟨hs, hnone, hnil⟩, by simp, .refl _,
      fun _ => hnil, nofun⟩
    rw [hdone]
    rfl
  · rw [hfound] at ho hp hle ⊢
    have htail : it.next.2.remaining = l := by rw [Peekable.remaining_next, hrem, tail_cons]
    have hit := ho.1 it rfl
    rw [hrem] at hit
    refine ⟨some a, ⟨heap, some it.next.2, .used⟩, ?_, ⟨⟨?_, ho.2⟩, rfl⟩, by simp, ?_, nofun, ?_⟩
    · simp [nextFound, hrem]
    · intro it' hit'
      obtain rfl := mem_some_iff.mp hit'
      rw [htail]
      exact (pairwise_cons.mp hit).2
    · simpa [rest, hrem, htail] using hp
    · rintro _ ⟨⟩ b hb
      apply hle b
      simp only [rest, elim_some, hrem, htail] at hb ⊢
      exact mem_cons_of_mem _ hb

theorem Live.next (h : m.Live) : ∃ item m', m.next = some (item, m') ∧ m.Took item m' := by
  obtain ⟨hs, hstate⟩ := h
  unfold KMergeBy.next
  cases hst : m.state with
  | init =>
    rw [hst] at hstate
    exact nextFound_spec hs hstate
  | used =>
    rw [hst] at hstate
    obtain ⟨it, hit⟩ := isSome_iff_exists.mp hstate
    obtain ⟨m₁, hret, hnone, -, ho, hperm⟩ := returnLastToHeap_spec hs hit
    rw [hret]
    obtain ⟨item, m', hnext, htook⟩ := nextFound_spec ho hnone
    exact ⟨item, m', hnext, { htook with perm := hperm.symm.trans htook.perm }⟩
  | ready => simp [hst] at hstate
  | done =>
    rw [hst] at hstate
    refine ⟨none, m, by simp [nextFound, hst], ⟨hs, ?_⟩, by simp [hst], .refl _,
      fun _ => hstate.2, nofun⟩
    rw [hst]
    exact hstate

end Total

section Seek
variable (hlower : ∀ key, Lower cmp fun a => compareKey a key == .lt)
include hlower

theorem seekBelow_spec (key : κ) {it : Peekable α} (hs : Sorted cmp it.remaining) :
    ∃ it', seekBelow compareKey key it = some it' ∧ Sorted cmp it'.remaining ∧
      it'.remaining = it.remaining.filter fun a => !(compareKey a key == .lt) := by
  have hfilter := hs.dropWhile_eq (hlower key)
  have hsorted : Sorted cmp (it.remaining.filter fun a => !(compareKey a key == .lt)) :=
    hs.filter _
  suffices ∃ it', seekBelow compareKey key it = some it' ∧
      it'.remaining = it.remaining.dropWhile fun a => compareKey a key == .lt by
    obtain ⟨it', hit', hrem⟩ := this
    rw [hfilter] at hrem
    exact ⟨it', hit', hrem ▸ hsorted, hrem⟩
  unfold seekBelow
  cases hr : it.remaining with
  | nil => exact ⟨it.peek, by simp [hr], by simp [hr]⟩
  | cons a l =>
    have hitem : it.peek.item = some a := by simp [hr]
    have hiter : it.peek.iter = l := by
      have := it.remaining_peek
      rw [hr, Peekable.remaining, hitem] at this
      exact tail_eq_of_cons_eq this
    simp only [hitem]
    split
    · rename_i hlt
      refine ⟨⟨l.dropWhile fun a => compareKey a key == .lt, none⟩, ?_, ?_⟩
      · simp [Peekable.seek, hr, hlt, hiter]
      · simp [Peekable.remaining, hlt]
    · rename_i hlt
      exact ⟨it.peek, rfl, by simp [hr, hlt]⟩

theorem mapM_seekBelow (key : κ) {ws : List (PeekWrapper α)}
    (hs : ∀ w ∈ ws, Sorted cmp w.iter.remaining) :
    ∃ its, (ws.mapM fun w => seekBelow compareKey key w.iter) = some its ∧
      (∀ it ∈ its, Sorted cmp it.remaining) ∧ its.flatMap Peekable.remaining =
        (ws.flatMap fun w => w.iter.remaining).filter fun a => !(compareKey a key == .lt) := by
  induction ws with
  | nil => exact ⟨[], rfl, by simp, rfl⟩
  | cons w ws ih =>
    obtain ⟨it, hit, hsorted, hrem⟩ := seekBelow_spec hlower key (hs w mem_cons_self)
    obtain ⟨its, hits, hsorted', hrem'⟩ := ih fun v hv => hs v (mem_cons_of_mem _ hv)
    refine ⟨it :: its, by simp [hit, hits], forall_mem_cons.mpr ⟨hsorted, hsorted'⟩, ?_⟩
    rw [flatMap_cons, flatMap_cons, filter_append, hrem, hrem']

theorem seek_spec (key : κ) (hs : m.Ordered) (hstate : m.state ≠ .used) :
    ∃ m', m.seek compareKey key = some m' ∧ m'.Ordered ∧ m'.state = .used ∧
      (m'.nextIterator.isSome ↔ m.nextIterator.isSome) ∧
      m'.rest.Perm (m.rest.filter fun a => !(compareKey a key == .lt)) := by
  obtain ⟨its, hits, hsorted, hrem⟩ := mapM_seekBelow hlower key hs.2
  let ws := its.filterMap fun it => PeekWrapper.of it.peek
  have hws : ∀ w ∈ ws, Sorted cmp w.iter.remaining := by
    intro w hw
    obtain ⟨it, hit, hof⟩ := mem_filterMap.mp hw
    rw [PeekWrapper.iter_of hof, Peekable.remaining_peek]
    exact hsorted it hit
  have hheap := queue.drain_collect ws
  have hrest := (hheap.flatMap_right fun w => w.iter.remaining).trans
    (.of_eq ((PeekWrapper.remaining_filterMap its).trans hrem))
  have hordered := sorted_of_perm_flatMap hheap.symm hws
  cases hnext : m.nextIterator with
  | none =>
    refine ⟨⟨queue.collect ws, none, .used⟩, ?_, ⟨by simp, hordered⟩, rfl, Iff.rfl, ?_⟩
    · simp [seek, hstate, hnext, hits, ws]
    · simpa [rest, hnext] using hrest
  | some it =>
    obtain ⟨it', hit', hsorted', hrem'⟩ := seekBelow_spec hlower key (hs.1 it hnext)
    refine ⟨⟨queue.collect ws, some it', .used⟩, ?_, ⟨?_, hordered⟩, rfl, Iff.rfl, ?_⟩
    · simp [seek, hstate, hnext, hit', hits, ws]
    · intro v hv
      rwa [← mem_some_iff.mp hv]
    · simpa [rest, hnext, hrem'] using hrest.append_left _

theorem seek_of_used [TransCmp cmp] (key : κ) {it : Peekable α} (hs : m.Ordered)
    (hused : m.state = .used) (hit : m.nextIterator = some it) :
    ∃ m', m.seek compareKey key = some m' ∧ m'.Ordered ∧ m'.state = .used ∧
      (m'.nextIterator.isSome ↔ m.rest ≠ []) ∧
      m'.rest.Perm (m.rest.filter fun a => !(compareKey a key == .lt)) := by
  obtain ⟨m₁, hret, hnone, -, ho, hperm⟩ := returnLastToHeap_spec hs hit
  have hseek : m.seek compareKey key = m₁.findNextState.seek compareKey key := by
    have hne : m₁.findNextState.state ≠ .used := by
      unfold findNextState
      split <;> simp
    simp [seek, hused, hret, hne]
  rcases findNextState_spec ho hnone with ⟨hnil, hdone⟩ | ⟨it, heap, a, l, hfound, hrem, ho', hp, -⟩
  · obtain ⟨m', hm', ho', hst, hsome, hrest⟩ :=
      seek_spec hlower key (m := m₁.findNextState) (by rw [hdone]; exact ho) (by simp [hdone])
    have hmnil : m.rest = [] := perm_nil.mp (hnil ▸ hperm.symm)
    refine ⟨m', hseek.trans hm', ho', hst, ?_, ?_⟩
    · simp [hsome, hdone, hnone, hmnil]
    · have : m₁.findNextState.rest = m₁.rest := by rw [hdone]; rfl
      simpa [hmnil, this, hnil] using hrest
  · obtain ⟨m', hm', ho'', hst, hsome, hrest⟩ :=
      seek_spec hlower key ho' (by simp [hfound])
    refine ⟨m', hseek.trans hm', ho'', hst, ?_, hrest.trans ((hp.symm.trans hperm).filter _)⟩
    have hne : m.rest ≠ [] := by
      intro hnil
      have := (hperm.symm.trans hp).symm.length_eq
      rw [hnil, hfound] at this
      simp [rest, hrem] at this
    simp [hsome, hfound, hne]

/-- After a seek the iterator is live where it has been used and an element was left, and stuck
elsewhere. -/
theorem Live.seek [TransCmp cmp] (h : m.Live) (key : κ) :
    ∃ m', m.seek compareKey key = some m' ∧ m'.state ≠ .init ∧
      (m.state ≠ .init ∧ m.rest ≠ [] → m'.Live ∧
        m'.rest.Perm (m.rest.filter fun a => !(compareKey a key == .lt))) ∧
      (¬ (m.state ≠ .init ∧ m.rest ≠ []) → m'.Stuck) := by
  obtain ⟨hs, hstate⟩ := h
  have hlive : ∀ m' : KMergeBy queue, m'.Ordered → m'.state = .used → m'.nextIterator.isSome →
      m'.Live := fun m' ho hst hsome => ⟨ho, by rw [hst]; exact hsome⟩
  have hstuck : ∀ m' : KMergeBy queue, m'.state = .used → ¬ m'.nextIterator.isSome → m'.Stuck :=
    fun m' hst hsome => ⟨hst, not_isSome_iff_eq_none.mp hsome⟩
  cases hst : m.state with
  | used =>
    rw [hst] at hstate
    obtain ⟨it, hit⟩ := isSome_iff_exists.mp hstate
    obtain ⟨m', hm', ho, hst', hsome, hrest⟩ := seek_of_used hlower key hs hst hit
    refine ⟨m', hm', by simp [hst'], fun hne => ?_, fun hne => ?_⟩
    · exact ⟨hlive m' ho hst' (hsome.mpr hne.2), hrest⟩
    · exact hstuck m' hst' fun h => hne ⟨by simp, hsome.mp h⟩
  | ready => simp [hst] at hstate
  | init =>
    rw [hst] at hstate
    obtain ⟨m', hm', ho, hst', hsome, -⟩ := seek_spec hlower key hs (by simp [hst])
    exact ⟨m', hm', by simp [hst'], fun hne => absurd rfl hne.1,
      fun _ => hstuck m' hst' (by simp [hsome, hstate])⟩
  | done =>
    rw [hst] at hstate
    obtain ⟨m', hm', ho, hst', hsome, -⟩ := seek_spec hlower key hs (by simp [hst])
    exact ⟨m', hm', by simp [hst'], fun hne => absurd hstate.2 hne.2,
      fun _ => hstuck m' hst' (by simp [hsome, hstate.1])⟩

end Seek

end Steps

/-- Every seek that another call follows comes after a `next` and while an element is left. -/
def SeeksFound (below : κ → α → Bool) : Bool → List α → List (Call κ) → Prop
  | _, _, [] => True
  | _, l, .next :: calls => SeeksFound below true l.tail calls
  | started, l, .seek key :: calls =>
    (calls ≠ [] → started = true ∧ l ≠ []) ∧
      SeeksFound below started (l.dropWhile (below key)) calls

section Run
variable [TransCmp cmp] {compareKey : α → κ → Ordering}
  (hlower : ∀ key, Lower cmp fun a => compareKey a key == .lt) {m : KMergeBy queue}
  {calls : List (Call κ)}
include hlower

theorem Live.run_isSome {started : Bool} {l : List α} (h : m.Live)
    (hstarted : m.state ≠ .init ↔ started = true) (hl : Sorted cmp l) (halike : Alike cmp m.rest l) :
    (m.run compareKey calls).isSome ↔
      SeeksFound (fun key a => compareKey a key == .lt) started l calls := by
  induction calls generalizing m started l with
  | nil => simp [run, SeeksFound]
  | cons call calls ih =>
    cases call with
    | next =>
      rw [SeeksFound]
      obtain ⟨item, m', hm', hlive, hst, hp, hend, hle⟩ := h.next
      rw [run_next hm', isSome_map]
      have halike' : Alike cmp (item.toList ++ m'.rest) l := fun p hp' =>
        (hp.countP_eq p).symm.trans (halike p hp')
      refine ih hlive (by simp [hst]) (hl.sublist (tail_sublist _)) ?_
      cases item with
      | none =>
        obtain rfl := halike'.nil_iff.mp (hend rfl)
        exact halike'
      | some a =>
        cases l with
        | nil => cases halike'.nil_iff.mpr rfl
        | cons b l => exact halike'.take (hle a rfl) (pairwise_cons.mp hl).1
    | seek key =>
      rw [SeeksFound]
      obtain ⟨m', hm', hst, hgood, hbad⟩ := h.seek hlower key
      rw [run_seek hm']
      by_cases hc : m.state ≠ .init ∧ m.rest ≠ []
      · obtain ⟨hlive, hp⟩ := hgood hc
        have hne : l ≠ [] := fun h => hc.2 (halike.nil_iff.mpr h)
        have hdrop := hl.dropWhile_eq (hlower key)
        have hsorted : Sorted cmp (l.dropWhile fun a => compareKey a key == .lt) :=
          hl.sublist (dropWhile_sublist _)
        have halike' : Alike cmp m'.rest (l.dropWhile fun a => compareKey a key == .lt) := by
          intro p hp'
          rw [hp.countP_eq p, hdrop]
          exact halike.filter_not (hlower key) p hp'
        have hstarted' : m'.state ≠ .init ↔ started = true := by simp [hst, ← hstarted, hc.1]
        rw [ih hlive hstarted' hsorted halike']
        simp [hne, ← hstarted, hc.1]
      · have hnot : ¬ (started = true ∧ l ≠ []) := fun h =>
          hc ⟨hstarted.mpr h.1, fun hn => h.2 (halike.nil_iff.mp hn)⟩
        rw [(hbad hc).run_isSome]
        constructor
        · rintro rfl
          simp [SeeksFound]
        · intro h
          by_contra hcalls
          exact hnot (h.1 hcalls)

theorem Live.run_answers {outs : List (Option α)} (h : m.Live)
    (hrun : m.run compareKey calls = some outs) :
    ∃ l, l.Perm m.rest ∧ Sorted cmp l ∧
      outs = answers (fun key a => compareKey a key == .lt) l calls := by
  induction calls generalizing m outs with
  | nil =>
    obtain rfl : [] = outs := by simpa [run] using hrun
    exact ⟨_, arrange_perm cmp m.rest, sorted_arrange cmp m.rest, rfl⟩
  | cons call calls ih =>
    cases call with
    | next =>
      obtain ⟨item, m', hm', hlive, -, hp, hend, hle⟩ := h.next
      obtain ⟨items, hitems, rfl⟩ := map_eq_some_iff.mp ((run_next hm').symm.trans hrun)
      obtain ⟨l, hl, hs, rfl⟩ := ih hlive hitems
      refine ⟨item.toList ++ l, (hl.append_left _).trans hp.symm, ?_, ?_⟩
      · refine pairwise_append.mpr ⟨by cases item <;> simp, hs, fun a ha b hb => ?_⟩
        exact hle a (by simpa using ha) b (hl.mem_iff.mp hb)
      · cases item with
        | none =>
          obtain rfl := perm_nil.mp (hend rfl ▸ hl)
          rfl
        | some a => rfl
    | seek key =>
      obtain ⟨m', hm', -, hgood, hbad⟩ := h.seek hlower key
      have hrun' : m'.run compareKey calls = some outs := (run_seek hm').symm.trans hrun
      by_cases hc : m.state ≠ .init ∧ m.rest ≠ []
      · obtain ⟨hlive, hp⟩ := hgood hc
        obtain ⟨l, hl, hs, rfl⟩ := ih hlive hrun'
        -- the elements passed over come first, and none of the others is below the target
        let q : α → Bool := fun a => compareKey a key == .lt
        let front := arrange cmp (m.rest.filter q)
        have hfront : ∀ a ∈ front, q a = true := fun a ha =>
          (mem_filter.mp ((arrange_perm cmp _).mem_iff.mp ha)).2
        have hback : ∀ a ∈ l, ¬ q a = true := fun a ha => by
          have := (mem_filter.mp ((hl.trans hp).mem_iff.mp ha)).2
          simpa [q] using this
        refine ⟨front ++ l, ?_, ?_, ?_⟩
        · exact ((arrange_perm cmp _).append (hl.trans hp)).trans
            (filter_append_perm q m.rest)
        · refine pairwise_append.mpr ⟨sorted_arrange cmp _, hs, fun a ha b hb => ?_⟩
          by_contra hab
          have hba : (cmp b a).isLE := by
            have hswap : cmp b a = (cmp a b).swap := OrientedCmp.eq_swap
            rw [hswap]
            revert hab
            cases cmp a b <;> simp
          exact hback b hb (hlower key b a hba (hfront a ha))
        · rw [answers, dropWhile_append_of_pos hfront]
          congr 1
          cases l with
          | nil => rfl
          | cons b l => rw [dropWhile_cons_of_neg (hback b mem_cons_self)]
      · have hcalls := (hbad hc).run_isSome.mp (by rw [hrun']; rfl)
        subst hcalls
        obtain rfl : [] = outs := by simpa [run] using hrun'
        exact ⟨_, arrange_perm cmp m.rest, sorted_arrange cmp m.rest, rfl⟩

end Run

section New
variable {iters : List (List α)}

theorem rest_new : (new queue iters).rest.Perm iters.flatten := by
  let peekables : List (Peekable α) := iters.map fun iter => ⟨iter, none⟩
  have hheap := (queue.drain_collect (peekables.filterMap fun it => PeekWrapper.of it.peek))
    |>.flatMap_right fun w => w.iter.remaining
  refine (hheap.trans (.of_eq (PeekWrapper.remaining_filterMap _))).trans (.of_eq ?_)
  rw [flatMap_map]
  exact flatMap_id

theorem live_new (queue : Queue (PeekWrapper α) (PeekWrapper.first cmp))
    (hs : ∀ l ∈ iters, Sorted cmp l) : (new queue iters).Live := by
  refine ⟨⟨by simp [new], ?_⟩, rfl⟩
  apply sorted_of_perm_flatMap (queue.drain_collect _).symm
  intro w hw
  obtain ⟨it, hit, hof⟩ := mem_filterMap.mp hw
  obtain ⟨l, hl, rfl⟩ := mem_map.mp hit
  rw [PeekWrapper.iter_of hof, Peekable.remaining_peek]
  exact hs l hl

end New

/-- The merged iterator answers every call as a sorted merge of its inputs does exactly when no
seek comes before the first `next` or after the last element, unless it is the last call. -/
theorem kmerge_exact_iff [TransCmp cmp] (compareKey : α → κ → Ordering)
    (hlower : ∀ key, Lower cmp fun a => compareKey a key == .lt) (iters : List (List α))
    (hs : ∀ l ∈ iters, Sorted cmp l) (calls : List (Call κ)) :
    (∃ outs, (new queue iters).run compareKey calls = some outs ∧
        ∃ merged, merged.Perm iters.flatten ∧ Sorted cmp merged ∧
          outs = answers (fun key a => compareKey a key == .lt) merged calls) ↔
      SeeksFound (fun key a => compareKey a key == .lt) false (arrange cmp iters.flatten) calls := by
  have hlive := live_new queue hs
  have halike : Alike cmp (new queue iters).rest (arrange cmp iters.flatten) :=
    alike_of_perm (rest_new.trans (arrange_perm cmp _).symm)
  rw [← hlive.run_isSome hlower (by simp [new]) (sorted_arrange cmp _) halike, isSome_iff_exists]
  refine exists_congr fun outs => and_iff_left_of_imp fun hrun => ?_
  obtain ⟨l, hl, hsorted, houts⟩ := hlive.run_answers hlower hrun
  exact ⟨l, hl.trans rest_new, hsorted, houts⟩

section Naturals

theorem lower_compare (key : Nat) : Lower compare fun a => compare a key == .lt := by
  intro a b hab hb
  simp only [Nat.isLE_compare, beq_iff_eq, Nat.compare_eq_lt] at hab hb ⊢
  exact hab.trans_lt hb

def listHeap : Queue (PeekWrapper Nat) (PeekWrapper.first compare) :=
  Queue.ofList (fun w : PeekWrapper Nat => w.iter.item.get w.peeked) compare

theorem kmerge_exact_two :
    SeeksFound (fun key a => compare a key == .lt) false (arrange compare [[1, 4], [2, 3]].flatten)
        [.next, .seek 3, .next, .next, .next] ∧
      ∃ outs, (new listHeap [[1, 4], [2, 3]]).run compare
          [.next, .seek 3, .next, .next, .next] = some outs ∧
        ∃ merged, merged.Perm [[1, 4], [2, 3]].flatten ∧ Sorted compare merged ∧
          outs = answers (fun key a => compare a key == .lt) merged
            [.next, .seek 3, .next, .next, .next] := by
  have hfound : SeeksFound (fun key a => compare a key == .lt) false
      (arrange compare [[1, 4], [2, 3]].flatten) [.next, .seek 3, .next, .next, .next] := by
    have harrange : arrange compare [[1, 4], [2, 3]].flatten = [1, 2, 3, 4] := by decide
    rw [harrange]
    simp [SeeksFound]
  refine ⟨hfound, (kmerge_exact_iff compare lower_compare _ ?_ _).mpr hfound⟩
  simp [Sorted]
  decide

/-- A seek before the first `next` leaves nothing to put back into the heap. -/
theorem seek_first_panics : (new listHeap [[1, 2, 3]]).run compare [.seek 2, .next] = none := by
  decide

end Naturals

end KMergeBy

end TypeDB.Common
