import TypeDB.Storage.Effects

/-! The windows of the timeline. Bottom up: the deque as the source keeps it, a list of windows
that is unwrapped, indexed and appended to, and that it is always the run of windows which the
timeline stands for; then that a thread finds every window it looks for, so that the only panic
left in a commit is the one for a commit without a status in the log. -/

namespace TypeDB.Storage
open List Runs Threads Transaction Timeline Nat

/-- The `VecDeque` of the timeline, each window by its start. In what follows `none` is a panic:
an `unwrap` of nothing. -/
abbrev WindowDeque := List Nat

namespace WindowDeque

def resolveWindow (windows : WindowDeque) (n : Nat) : Option (Option Nat) :=
  match windows.head?, windows.getLast? with
  | some start, some last =>
    if start ≤ n ∧ n < windowEnd last then some (some ((n - start) / timelineWindowSize))
    else some none
  | _, _ => none

def tryGetWindow (windows : WindowDeque) (n : Nat) : Option (Option Nat) :=
  match resolveWindow windows n with
  | none => none
  | some none => some none
  | some (some index) => windows[index]?.map some

def createWindowsTo : Nat → WindowDeque → Nat → Option WindowDeque
  | 0, _, _ => none
  | rounds + 1, windows, n =>
    match windows.getLast? with
    | none => none
    | some last =>
      if windowEnd last ≤ n then createWindowsTo rounds (windows ++ [windowEnd last]) n
      else some windows

def collectConcurrentWindows (windows : WindowDeque) (openNumber commitNumber : Nat) :
    Option (List Nat × Nat) :=
  match resolveWindow windows (openNumber + 1), resolveWindow windows (commitNumber - 1) with
  | some first, some last =>
    match (range' (first.getD 0) (last.getD 0 + 1 - first.getD 0)).mapM (windows[·]?),
      windows[first.getD 0]? with
    | some concurrent, some start => some (concurrent, start)
    | _, _ => none
  | _, _ => none

def popFront : WindowDeque → Option WindowDeque
  | _ :: window :: rest => some (window :: rest)
  | _ => none

end WindowDeque

variable {K V : Type*} [LinearOrder K]

namespace Timeline
variable {tl : Timeline K V} {n : Nat}

def windows (tl : Timeline K V) : WindowDeque := (range (tl.more + 1)).map tl.windowAt

theorem windows_getElem? (tl : Timeline K V) {index : Nat} (h : index ≤ tl.more) :
    tl.windows[index]? = some (tl.windowAt index) := by
  simp [windows, lt_succ_of_le h]

theorem windows_ne_nil (tl : Timeline K V) : tl.windows ≠ [] := by simp [windows]

theorem windows_head? (tl : Timeline K V) : tl.windows.head? = some tl.front := by
  rw [head?_eq_getElem?, tl.windows_getElem? (zero_le _)]
  rfl

theorem windows_getLast? (tl : Timeline K V) :
    tl.windows.getLast? = some (tl.windowAt tl.more) := by
  simp [windows, range_succ]

theorem windowEnd_windowAt (tl : Timeline K V) (index : Nat) :
    windowEnd (tl.windowAt index) = tl.windowAt (index + 1) := by
  simp only [windowEnd, windowAt]
  ring

theorem backEnd_eq (tl : Timeline K V) : tl.backEnd = tl.windowAt (tl.more + 1) := rfl

theorem mem_windows {w : Nat} : w ∈ tl.windows ↔ ∃ index ≤ tl.more, tl.windowAt index = w := by
  simp [windows]

theorem mem_windows_iff {w : Nat} : w ∈ tl.windows ↔
    tl.front ≤ w ∧ w < tl.backEnd ∧ (w - tl.front) % timelineWindowSize = 0 := by
  rw [mem_windows]
  simp only [windowAt, backEnd, timelineWindowSize]
  constructor
  · rintro ⟨index, hindex, rfl⟩
    omega
  · rintro ⟨h₁, h₂, h₃⟩
    exact ⟨(w - tl.front) / 100, by omega, by omega⟩

theorem windows_isChain (tl : Timeline K V) : tl.windows.IsChain fun v w => w = windowEnd v := by
  rw [isChain_iff_getElem]
  intro i h
  simp only [windows, getElem_map, getElem_range, windowEnd_windowAt]

theorem resolveWindow_windows (tl : Timeline K V) (n : Nat) :
    WindowDeque.resolveWindow tl.windows n = some (tl.resolveWindow n) := by
  rw [WindowDeque.resolveWindow, tl.windows_head?, tl.windows_getLast?]
  simp only [windowEnd_windowAt, ← backEnd_eq, resolveWindow]
  split_ifs <;> rfl

theorem resolveWindow_le {index : Nat} (h : tl.resolveWindow n = some index) : index ≤ tl.more := by
  rw [resolveWindow] at h
  split_ifs at h with hn
  cases h
  simp only [backEnd, timelineWindowSize] at hn ⊢
  omega

theorem resolveWindow_getD_le (tl : Timeline K V) (n : Nat) :
    (tl.resolveWindow n).getD 0 ≤ tl.more := by
  cases h : tl.resolveWindow n with
  | none => exact zero_le _
  | some index => exact resolveWindow_le h

theorem tryGetWindow_windows (tl : Timeline K V) (n : Nat) :
    WindowDeque.tryGetWindow tl.windows n = some (tl.tryGetWindow n) := by
  rw [WindowDeque.tryGetWindow, resolveWindow_windows, tryGetWindow]
  cases h : tl.resolveWindow n with
  | none => rfl
  | some index => simp [tl.windows_getElem? (resolveWindow_le h)]

theorem windows_append (tl : Timeline K V) :
    ({ tl with more := tl.more + 1 } : Timeline K V).windows = tl.windows ++ [tl.backEnd] := by
  simp only [windows, range_succ (n := tl.more + 1), map_append]
  rfl

theorem createWindowsTo_succ (h : tl.backEnd ≤ n) :
    ({ tl with more := tl.more + 1 } : Timeline K V).createWindowsTo n = tl.createWindowsTo n := by
  have hback : ({ tl with more := tl.more + 1 } : Timeline K V).backEnd =
      tl.backEnd + timelineWindowSize := by
    simp only [backEnd]
    ring
  rw [createWindowsTo, createWindowsTo, if_pos h, hback]
  by_cases hmore : tl.backEnd + timelineWindowSize ≤ n
  · rw [if_pos hmore]
    simp only [timelineWindowSize] at hmore ⊢
    have : (n - tl.backEnd) / 100 = (n - (tl.backEnd + 100)) / 100 + 1 := by omega
    rw [this]
    congr 1
    omega
  · rw [if_neg hmore]
    simp only [timelineWindowSize] at hmore ⊢
    have : (n - tl.backEnd) / 100 = 0 := by omega
    rw [this]

theorem createWindowsTo_windows (tl : Timeline K V) (n : Nat) {rounds : Nat}
    (h : n < tl.backEnd + rounds) :
    WindowDeque.createWindowsTo (rounds + 1) tl.windows n = some (tl.createWindowsTo n).windows := by
  induction rounds generalizing tl with
  | zero =>
    rw [WindowDeque.createWindowsTo, windows_getLast?]
    simp only [windowEnd_windowAt, ← backEnd_eq, createWindowsTo]
    rw [if_neg (by omega), if_neg (by omega)]
  | succ rounds ih =>
    rw [WindowDeque.createWindowsTo, windows_getLast?]
    simp only [windowEnd_windowAt, ← backEnd_eq]
    split_ifs with hle
    · rw [← windows_append, ih, createWindowsTo_succ hle]
      simp only [backEnd, timelineWindowSize] at h ⊢
      omega
    · rw [createWindowsTo, if_neg hle]

theorem collectConcurrentWindows_windows (tl : Timeline K V) (openNumber commitNumber : Nat) :
    WindowDeque.collectConcurrentWindows tl.windows openNumber commitNumber =
      some (tl.collectConcurrentWindows openNumber commitNumber) := by
  have hfirst := tl.resolveWindow_getD_le (openNumber + 1)
  have hlast := tl.resolveWindow_getD_le (commitNumber - 1)
  rw [WindowDeque.collectConcurrentWindows, resolveWindow_windows, resolveWindow_windows]
  dsimp only
  rw [tl.windows_getElem? hfirst]
  have hmap : ∀ start len, start + len ≤ tl.more + 1 →
      (range' start len).mapM (tl.windows[·]?) =
        some ((range' start len).map tl.windowAt) := by
    intro start len hle
    induction len generalizing start with
    | zero => rfl
    | succ len ih =>
      rw [range'_succ, mapM_cons, tl.windows_getElem? (by omega), ih _ (by omega)]
      rfl
  rw [hmap _ _ (by omega)]
  rfl

theorem popFront_windows (tl : Timeline K V) :
    WindowDeque.popFront tl.windows = tl.popFront.map windows := by
  rw [popFront]
  split
  · rename_i hmore
    simp [windows, hmore, WindowDeque.popFront]
  · rename_i more hmore
    have hshift : tl.windows = tl.front :: (range (more + 1)).map fun i =>
        windowEnd tl.front + timelineWindowSize * i := by
      simp only [windows, hmore]
      rw [range_succ_eq_map, map_cons, map_map]
      congr 1
      apply map_congr_left
      intro i _
      simp only [Function.comp, windowAt, windowEnd, succ_eq_add_one]
      ring
    rw [hshift, range_succ_eq_map]
    simp [WindowDeque.popFront, windows, windowAt, range_succ_eq_map]

/-- What the deque does is what the timeline does, and it panics only where its last window is
popped. -/
theorem windowDeque_refines (tl : Timeline K V) (n m : Nat) :
    WindowDeque.tryGetWindow tl.windows n = some (tl.tryGetWindow n) ∧
    WindowDeque.createWindowsTo (n + 2) tl.windows n = some (tl.createWindowsTo n).windows ∧
    WindowDeque.collectConcurrentWindows tl.windows n m = some (tl.collectConcurrentWindows n m) ∧
    WindowDeque.popFront tl.windows = tl.popFront.map windows :=
  ⟨tl.tryGetWindow_windows n, tl.createWindowsTo_windows n (by omega),
    tl.collectConcurrentWindows_windows n m, tl.popFront_windows⟩

end Timeline

section Collected
variable {c m : Nat} {tl : Timeline K V}

/-- Going through the windows from `m` on, each number before `c` is in the window at hand. -/
def Covers (c : Nat) : List Nat → Nat → Prop
  | [], m => c ≤ m
  | w :: rest, m => m < c → InWindow w m ∧ Covers c rest (windowEnd w)

theorem covers_of_le {windows : List Nat} (h : c ≤ m) : Covers c windows m := by
  cases windows with
  | nil => exact h
  | cons w rest => exact fun hm => absurd h (not_le.mpr hm)

theorem Covers.head {windows : List Nat} (h : Covers c windows m) (hm : m < c) :
    ∃ w rest, windows = w :: rest ∧ InWindow w m := by
  cases windows with
  | nil => exact absurd h (not_le.mpr hm)
  | cons w rest => exact ⟨w, rest, rfl, (h hm).1⟩

theorem Covers.advance {t : Transaction K V} (h : Covers c t.windows m) (hm : m < c) :
    Covers c (t.advance m).windows (m + 1) := by
  obtain ⟨w, rest, hw, hin⟩ := h.head hm
  rw [hw] at h
  obtain ⟨-, hrest⟩ := h hm
  simp only [Transaction.advance, hw]
  split_ifs with hend
  · have : windowEnd w = m + 1 := le_antisymm hend (succ_le_of_lt hin.2)
    rwa [← this]
  · exact fun _ => ⟨⟨hin.1.trans (le_succ m), not_le.mp hend⟩, hrest⟩

theorem covers_range {i k : Nat} (hm : m < c → InWindow (tl.windowAt i) m)
    (hc : c ≤ tl.windowAt (i + k)) : Covers c ((range' i k).map tl.windowAt) m := by
  induction k generalizing i m with
  | zero =>
    by_contra hnot
    have hlt : m < c := not_le.mp hnot
    have := (hm hlt).1
    rw [add_zero] at hc
    omega
  | succ k ih =>
    intro hlt
    refine ⟨hm hlt, ih (fun _ => ?_) (by rwa [add_right_comm])⟩
    rw [windowEnd_windowAt]
    simp only [InWindow, windowEnd, timelineWindowSize]
    omega

theorem collectConcurrentWindows_covers (tl : Timeline K V) {o : Nat} (ho : o < c)
    (hfront : tl.front ≤ c)
    (hback : c < tl.backEnd) :
    Covers c (tl.collectConcurrentWindows o c).1
      (max (o + 1) (tl.collectConcurrentWindows o c).2) := by
  simp only [collectConcurrentWindows]
  simp only [resolveWindow]
  by_cases hfirst : tl.front ≤ o + 1
  · rw [if_pos ⟨hfirst, by omega⟩, Option.getD_some]
    have hstop : tl.windowAt ((o + 1 - tl.front) / timelineWindowSize) ≤ o + 1 := by
      simp only [windowAt, timelineWindowSize]
      omega
    rw [max_eq_left hstop]
    rcases lt_or_ge (o + 1) c with hlt | hge
    · rw [if_pos ⟨by omega, by omega⟩, Option.getD_some]
      refine covers_range (fun _ => ⟨hstop, ?_⟩) ?_
      · simp only [windowEnd, windowAt, timelineWindowSize]
        omega
      · simp only [windowAt, timelineWindowSize]
        omega
    · exact covers_of_le hge
  · have hstop : tl.windowAt 0 = tl.front := rfl
    rw [if_neg fun h => hfirst h.1, Option.getD_none, hstop, max_eq_right (by omega)]
    rcases lt_or_ge tl.front c with hlt | hge
    · rw [if_pos ⟨by omega, by omega⟩, Option.getD_some]
      refine covers_range (fun _ => ⟨le_of_eq hstop, ?_⟩) ?_
      · simp only [windowEnd, hstop, timelineWindowSize]
        omega
      · simp only [windowAt, timelineWindowSize]
        omega
    · exact covers_of_le hge

end Collected

section Places
variable {first : Nat} {st st' : MVCCStorage K V} {t t' : Transaction K V}

/-- The commits that `validate_concurrent_from_disk` comes to. -/
def Transaction.diskCommits (st : MVCCStorage K V) (t : Transaction K V) (stop : Nat) :
    List (Nat × CommitRecord K V) :=
  (st.log.commitsFrom (t.openSequenceNumber + 1)).takeWhile fun p => decide (p.1 < stop)

def Transaction.MeetsUndecided (st : MVCCStorage K V) (t : Transaction K V) : Prop :=
  match t.pc with
  | .diskCommits stop isCommitted =>
    ∃ p ∈ t.diskCommits st stop, lookupStatus isCommitted p.1 = none
  | _ => False

def PlaceOk (st : MVCCStorage K V) (t : Transaction K V) : Pc K V → Prop
  | .lastEnd | .createWindows => st.commitRecords t.commitSequenceNumber = none
  | .ownWindow => st.commitRecords t.commitSequenceNumber = none ∧
      t.commitSequenceNumber < st.backEnd
  | .setRecord => st.commitRecords t.commitSequenceNumber = none ∧
      InWindow t.window t.commitSequenceNumber
  | .setPending | .collect | .setValidated | .raiseValidated | .batches =>
      InWindow t.window t.commitSequenceNumber
  | .diskStatuses m | .diskCommits m _ | .walk m => InWindow t.window t.commitSequenceNumber ∧
      Covers t.commitSequenceNumber t.windows m
  | .resolve m | .await m _ => (InWindow t.window t.commitSequenceNumber ∧
      Covers t.commitSequenceNumber t.windows m) ∧ st.slotStatus m ≠ .empty
  | .incrementCheck a | .incrementWindow _ a | .incrementStatus _ _ a | .incrementExchange _ _ a
  | .incrementEnd _ a | .free a | .freeCheck _ a | .freeLoop _ a | .freePop _ _ a
  | .removeReader a | .decrementReaders _ a =>
      a = .write → InWindow t.window t.commitSequenceNumber
  | _ => True

theorem PlaceOk.after {a : After} (h : a = .write → InWindow t.window t.commitSequenceNumber) :
    PlaceOk st t a.pc := by
  cases a with
  | write => exact h rfl
  | release => exact nofun
  | _ => trivial

theorem PlaceOk.spared {own : Option Nat} {pc : Pc K V} (h : Spares own st st')
    (hslot : ∀ n, st.slotStatus n ≠ .empty → st'.slotStatus n ≠ .empty)
    (hown : pc.stage.owns = true → own ≠ some t.commitSequenceNumber) (hp : PlaceOk st t pc) :
    PlaceOk st' t pc := by
  cases pc with
  | lastEnd | createWindows => exact (h.record _ (hown rfl)).trans hp
  | ownWindow => exact ⟨(h.record _ (hown rfl)).trans hp.1, hp.2.trans_le h.back_le⟩
  | setRecord => exact ⟨(h.record _ (hown rfl)).trans hp.1, hp.2⟩
  | resolve m | await m dependency => exact ⟨hp.1, hslot m hp.2⟩
  | _ => exact hp

/-- After the step `t'` the thread is placed; if it panicked, then over the log. -/
structure Placed (st : MVCCStorage K V) (t : Transaction K V) (st' : MVCCStorage K V)
    (t' : Transaction K V) : Prop where
  place : PlaceOk st' t' t'.pc
  panic : t'.pc = .panicked → t.MeetsUndecided st

theorem Placed.after {a : After} (h : a = .write → InWindow t.window t.commitSequenceNumber) :
    Placed st t st' (t.goto a.pc) := by
  refine ⟨PlaceOk.after h, ?_⟩
  cases a <;> exact nofun

theorem Placed.advance {m : Nat} (hw : InWindow t.window t.commitSequenceNumber)
    (hcovers : Covers t.commitSequenceNumber t.windows m) (hm : m < t.commitSequenceNumber) :
    Placed st t st' (t.advance m) :=
  ⟨⟨hw, hcovers.advance hm⟩, nofun⟩

theorem Placed.handle {m : Nat} {r : CommitRecord K V} {dependency : CommitDependency K}
    (hr : st.commitRecords t.commitSequenceNumber = some r)
    (hw : InWindow t.window t.commitSequenceNumber)
    (hcovers : Covers t.commitSequenceNumber t.windows m) (hm : m < t.commitSequenceNumber)
    (h : t.handle st m dependency = (st', t')) : Placed st t st' t' := by
  simp only [Transaction.handle, hr] at h
  split at h <;> cases h
  · exact ⟨trivial, by rintro ⟨⟩⟩
  · exact .advance hw hcovers hm

theorem validateFromDisk_ne_none {isCommitted : List (Nat × Bool)}
    {l : List (Nat × CommitRecord K V)} (h : ∀ p ∈ l, lookupStatus isCommitted p.1 ≠ none)
    (r : CommitRecord K V) : validateFromDisk isCommitted r l ≠ none := by
  induction l generalizing r with
  | nil => rintro ⟨⟩
  | cons e l ih =>
    have hrest : ∀ p ∈ l, lookupStatus isCommitted p.1 ≠ none := fun p hp =>
      h p (mem_cons_of_mem _ hp)
    have hhead := h e mem_cons_self
    obtain ⟨n, p⟩ := e
    rw [validateFromDisk]
    cases hb : lookupStatus isCommitted n with
    | none => exact absurd hb hhead
    | some b =>
      cases b with
      | false => exact ih hrest r
      | true =>
        dsimp only
        cases handleDependency r (r.computeDependency p) with
        | ok r' => exact ih hrest r'
        | error conflict => rintro ⟨⟩

theorem StorageOk.commitRecords_ne_none {n : Nat} (h : StorageOk first st)
    (hs : st.slotStatus n ≠ .empty) : ∃ r, st.commitRecords n = some r := by
  obtain ⟨r, -, hr, -⟩ := h.record n hs
  exact ⟨r, hr⟩

theorem getStatus_eq {n w : Nat} {r : CommitRecord K V} (hw : InWindow w n)
    (hr : st.commitRecords n = some r) : st.getStatus w n = match st.slotStatus n with
      | .empty => some .empty
      | .pending => some (.pending r)
      | .validated => some (.validated r)
      | .applied => some (.applied r)
      | .aborted => some .aborted := by
  rw [getStatus, if_pos (show w ≤ n ∧ n < windowEnd w from hw), hr]
  cases st.slotStatus n <;> rfl

section Steps
variable [DecidableEq V] (h : StorageOk first st) (ht : TransactionOk first st t)
  (hp : PlaceOk st t t.pc) (hstep : t.step st = some (st', t'))
include h ht hp hstep

theorem placed_ownWindow (hpc : t.pc = .ownWindow) : Placed st t st' t' := by
  obtain ⟨hs, -⟩ := ht.at_pc hpc
  rw [hpc] at hp
  have hfront : st.front ≤ t.commitSequenceNumber := by
    have := h.not_done_lt hs.started (by simp [MVCCStorage.Done, Committing.slot hs])
    have := h.front_le
    omega
  obtain ⟨window, hwindow⟩ := tryGetWindow_isSome hfront hp.2
  simp only [step, hpc, hwindow] at hstep
  cases hstep
  exact ⟨⟨hp.1, (tryGetWindow_eq_some hwindow).1⟩, by rintro ⟨⟩⟩

theorem placed_collect (hpc : t.pc = .collect) : Placed st t st' t' := by
  obtain ⟨hs, hr⟩ := ht.at_pc hpc
  replace hs : Committing first st t .pending false := hs
  rw [hpc] at hp
  have hfront : st.front ≤ t.commitSequenceNumber := by
    have := h.not_done_lt hs.started (by simp [MVCCStorage.Done, hs.slot])
    have := h.front_le
    omega
  have hback := h.slot_lt_back t.commitSequenceNumber (by simp [hs.slot])
  have hcovers := collectConcurrentWindows_covers st.toTimeline hs.before hfront hback
  simp only [step, hpc, getStatus_eq hp hr, hs.slot] at hstep
  split_ifs at hstep with hlt
  · cases hstep
    rw [max_eq_right hlt.le] at hcovers
    exact ⟨⟨hp, hcovers⟩, by rintro ⟨⟩⟩
  · cases hstep
    rw [max_eq_left (not_lt.mp hlt)] at hcovers
    exact ⟨⟨hp, hcovers⟩, by rintro ⟨⟩⟩

omit h in
theorem placed_diskCommits {stop : Nat} {isCommitted : List (Nat × Bool)}
    (hpc : t.pc = .diskCommits stop isCommitted) : Placed st t st' t' := by
  obtain ⟨-, hr, -⟩ := ht.at_pc hpc
  rw [hpc] at hp
  simp only [step, hpc, hr] at hstep
  split at hstep
  · rename_i hnone
    cases hstep
    refine ⟨trivial, fun _ => ?_⟩
    rw [MeetsUndecided, hpc]
    by_contra hall
    push Not at hall
    exact validateFromDisk_ne_none hall _ hnone
  · cases hstep
    exact ⟨trivial, by rintro ⟨⟩⟩
  · cases hstep
    exact ⟨hp, by rintro ⟨⟩⟩

omit ht in
theorem placed_walk {m : Nat} (hpc : t.pc = .walk m) : Placed st t st' t' := by
  rw [hpc] at hp
  simp only [step, hpc] at hstep
  split_ifs at hstep with hm
  · obtain ⟨w, rest, hwindows, hin⟩ := hp.2.head hm
    simp only [hwindows] at hstep
    have hne := h.getStatus_ne_none hin
    cases hstatus : st.getStatus w m with
    | none => exact absurd hstatus hne
    | some status =>
      rw [hstatus] at hstep
      have hslot := ofSlot_of_getStatus hstatus
      have hgo : st.slotStatus m ≠ .empty → Placed st t st (t.goto (.resolve m)) := fun hs =>
        ⟨⟨hp, hs⟩, by rintro ⟨⟩⟩
      cases status with
      | empty => cases hstep
      | aborted =>
        cases hstep
        exact hgo (by rw [hslot]; simp)
      | _ =>
        cases hstep
        exact hgo (by rw [hslot.1]; simp)
  · cases hstep
    exact ⟨hp.1, by rintro ⟨⟩⟩

theorem placed_resolve {m : Nat} (hpc : t.pc = .resolve m) : Placed st t st' t' := by
  obtain ⟨-, ⟨r, hr⟩, hm⟩ := ht.at_pc hpc
  rw [hpc] at hp
  obtain ⟨⟨hw, hcovers⟩, hslot⟩ := hp
  obtain ⟨w, rest, hwindows, hin⟩ := hcovers.head hm
  obtain ⟨p, hp⟩ := h.commitRecords_ne_none hslot
  simp only [step, hpc, hwindows, hr.slot, getStatus_eq hin hp] at hstep
  cases hs : st.slotStatus m with
  | empty => exact absurd hs hslot
  | pending =>
    simp only [hs] at hstep
    split at hstep
    · cases hstep
      exact .advance hw hcovers hm
    · cases hstep
      exact ⟨⟨⟨hw, hcovers⟩, hslot⟩, by rintro ⟨⟩⟩
  | validated | applied =>
    simp only [hs] at hstep
    exact .handle hr.slot hw hcovers hm (Option.some.inj hstep)
  | aborted =>
    simp only [hs] at hstep
    cases hstep
    exact .advance hw hcovers hm

theorem placed_await {m : Nat} {dependency : CommitDependency K}
    (hpc : t.pc = .await m dependency) : Placed st t st' t' := by
  obtain ⟨-, hm, r, -, hr, -⟩ := ht.at_pc hpc
  rw [hpc] at hp
  obtain ⟨⟨hw, hcovers⟩, hslot⟩ := hp
  obtain ⟨w, rest, hwindows, hin⟩ := hcovers.head hm
  obtain ⟨p, hp⟩ := h.commitRecords_ne_none hslot
  simp only [step, hpc, hwindows, getStatus_eq hin hp] at hstep
  cases hs : st.slotStatus m with
  | empty => exact absurd hs hslot
  | pending =>
    simp only [hs] at hstep
    cases hstep
  | validated | applied =>
    simp only [hs] at hstep
    exact .handle hr.slot hw hcovers hm (Option.some.inj hstep)
  | aborted =>
    simp only [hs] at hstep
    cases hstep
    exact .advance hw hcovers hm

theorem placed_incrementStatus {c w : Nat} {a : After} (hpc : t.pc = .incrementStatus c w a) :
    Placed st t st' t' := by
  obtain ⟨-, -, -, hin⟩ := ht.at_pc hpc
  rw [hpc] at hp
  have hne := h.getStatus_ne_none hin
  simp only [step, hpc] at hstep
  split at hstep
  · exact absurd (by assumption) hne
  all_goals
    cases hstep
    exact ⟨hp, by rintro ⟨⟩⟩

theorem placed_freePop {w wm : Nat} {a : After} (hpc : t.pc = .freePop w wm a) :
    Placed st t st' t' := by
  obtain ⟨-, -, hwm, hend⟩ := ht.at_pc hpc
  rw [hpc] at hp
  simp only [step, hpc] at hstep
  split_ifs at hstep with hfront
  · subst hfront
    obtain ⟨tl, htl, -⟩ := h.popFront none hwm hend
    rw [htl] at hstep
    cases hstep
    exact ⟨hp, by rintro ⟨⟩⟩
  · cases hstep
    exact ⟨hp, by rintro ⟨⟩⟩

theorem placed_batches (hpc : t.pc = .batches) : Placed st t st' t' := by
  obtain ⟨hs, -⟩ := ht.at_pc hpc
  replace hs : Committing first st t .validated false := hs
  rw [hpc] at hp
  obtain ⟨r, hr⟩ := h.commitRecords_ne_none (n := t.commitSequenceNumber) (by simp [hs.slot])
  simp only [step, hpc, getStatus_eq hp hr, hs.slot] at hstep
  cases hstep
  exact ⟨trivial, by rintro ⟨⟩⟩

theorem PlaceOk.step (hrecords : ∀ n, st.commitRecords n ≠ none → n < st.nextSequenceNumber) :
    Placed st t st' t' := by
  cases hpc : t.pc
  case ownWindow => exact placed_ownWindow h ht hp hstep hpc
  case collect => exact placed_collect h ht hp hstep hpc
  case diskCommits stop isCommitted => exact placed_diskCommits ht hp hstep hpc
  case walk m => exact placed_walk h hp hstep hpc
  case resolve m => exact placed_resolve h ht hp hstep hpc
  case await m dependency => exact placed_await h ht hp hstep hpc
  case incrementStatus c w a => exact placed_incrementStatus h ht hp hstep hpc
  case freePop w wm a => exact placed_freePop h ht hp hstep hpc
  case batches => exact placed_batches h ht hp hstep hpc
  all_goals
    rw [hpc] at hp
    simp only [Transaction.step, hpc] at hstep
  case sequencedWrite =>
    cases hstep
    refine ⟨?_, by rintro ⟨⟩⟩
    change st.commitRecords st.nextSequenceNumber = none
    by_contra hne
    exact lt_irrefl _ (hrecords _ hne)
  case lastEnd =>
    split_ifs at hstep with hback <;> cases hstep
    · exact ⟨hp, by rintro ⟨⟩⟩
    · exact ⟨⟨hp, not_le.mp hback⟩, by rintro ⟨⟩⟩
  case createWindows =>
    cases hstep
    refine ⟨⟨?_, lt_backEnd_createWindowsTo _ _⟩, by rintro ⟨⟩⟩
    obtain ⟨more, heq⟩ := st.toTimeline.createWindowsTo_spec t.commitSequenceNumber
    rw [MVCCStorage.setTimeline, heq]
    exact hp
  case setRecord =>
    rw [hp.1] at hstep
    cases hstep
    exact ⟨hp.2, by rintro ⟨⟩⟩
  case setAborted | setApplied =>
    cases hstep
    exact ⟨by rintro ⟨⟩, by rintro ⟨⟩⟩
  case raiseValidated =>
    cases hstep
    exact ⟨fun _ => hp, by rintro ⟨⟩⟩
  case decrementReaders w a =>
    split_ifs at hstep <;> cases hstep
    · exact ⟨hp, by rintro ⟨⟩⟩
    · exact ⟨PlaceOk.after hp, by cases a <;> rintro ⟨⟩⟩
  all_goals
    repeat' split at hstep
    all_goals first
      | contradiction
      | cases hstep
        first
        | exact .after hp
        | exact ⟨hp, by rintro ⟨⟩⟩

end Steps

theorem Call.place {i : Nat} {a : Action K V} (h : Call i t a t') : PlaceOk st t' t'.pc := by
  cases h with
  | close hpc hcall => exact nofun
  | _ => trivial

theorem Call.not_panicked {i : Nat} {a : Action K V} (h : Call i t a t') : t'.pc ≠ .panicked := by
  cases h <;> exact nofun

end Places

namespace Database
variable {first : Nat} {db db' : Database K V}

structure Placements (first : Nat) (db : Database K V) : Prop where
  ok : db.Ok first
  front : first < db.shared.front
  records : ∀ n, db.shared.commitRecords n ≠ none → n < db.shared.nextSequenceNumber
  located : ∀ n, db.shared.commitRecords n ≠ none → n < db.shared.backEnd
  places : ∀ i, PlaceOk db.shared (db.threads i) (db.threads i).pc

theorem placements_create (previous : Nat) : Placements previous (create previous : Database K V) :=
  ⟨ok_create previous, lt_succ_self _, fun _ hn => absurd rfl hn, fun _ hn => absurd rfl hn,
    fun _ => trivial⟩

variable [DecidableEq V]

theorem Placements.move {i : Nat} {st : MVCCStorage K V} {t : Transaction K V}
    (h : Placements first db) (hstep : (db.threads i).step db.shared = some (st, t)) :
    Placements first (db.move i st t) := by
  have hok := step_ok h.ok.shared (h.ok.own i) (st, t) hstep
  have heffect := step_effect hstep
  refine ⟨h.ok.move hok, ?_, fun n hn => ?_, fun n hn => ?_, fun j => ?_⟩
  · change first < st.front
    rcases heffect.front with heq | ⟨_, _, -, heq, -⟩
    · rw [heq]
      exact h.front
    · rw [heq]
      exact h.front.trans_le (le_add_right _ _)
  · rcases heffect.commitRecords hn with hold | ⟨rfl, hpc⟩
    · exact (h.records n hold).trans_le hok.spares.next_le
    · refine ((h.ok.own i).own_lt (if_pos ?_)).trans_le hok.spares.next_le
      rcases hpc with hpc | hstage
      · rw [hpc]
        rfl
      · rw [hstage]
        rfl
  · refine lt_of_lt_of_le ?_ hok.spares.back_le
    rcases heffect.commitRecords hn with hold | ⟨rfl, hpc | hstage⟩
    · exact h.located n hold
    · exact ((h.ok.own i).at_pc hpc).2
    · have hs := (h.ok.own i).stage
      rw [hstage] at hs
      exact h.ok.shared.slot_lt_back _ (by simp [Committing.slot hs])
  · by_cases hj : j = i
    · subst hj
      rw [System.move_self]
      exact ((h.places j).step h.ok.shared (h.ok.own j) hstep h.records).place
    · rw [System.move_of_ne db hj]
      have hown := hok.own_ne (h.ok.own j) (h.ok.pair i j (Ne.symm hj))
      exact (h.places j).spared hok.spares (fun n => heffect.slot_ne_empty) fun howns =>
        hown _ (if_pos howns)

theorem Placements.step {a : Action K V} (h : Placements first db)
    (hstep : db.step a = some db') : Placements first db' := by
  have hok := (h.ok.step hstep).1
  cases step_cases hstep with
  | run i st t hthread => exact h.move hthread
  | call i a t hcall =>
    refine { h with ok := hok, places := fun j => ?_ }
    exact move_threads (P := fun u => PlaceOk db.shared u u.pc) (h.places j) fun _ => hcall.place
  | sync => exact { h with ok := hok }

theorem Placements.not_panicked {a : Action K V} (h : Placements first db)
    (hrunning : ∀ i, (db.threads i).pc ≠ .panicked)
    (hdecided : ∀ i, a = .run i → ¬ (db.threads i).MeetsUndecided db.shared)
    (hstep : db.step a = some db') (i : Nat) : (db'.threads i).pc ≠ .panicked := by
  cases step_cases hstep with
  | run j st t hthread =>
    refine move_threads (P := fun u => u.pc ≠ .panicked) (hrunning i) fun _ hpanic => ?_
    have hplaced := (h.places j).step h.ok.shared (h.ok.own j) hthread h.records
    exact hdecided j rfl (hplaced.panic hpanic)
  | call j a t hcall =>
    exact move_threads (P := fun u => u.pc ≠ .panicked) (hrunning i) fun _ => hcall.not_panicked
  | sync => exact hrunning i

end Database

end TypeDB.Storage
