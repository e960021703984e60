import TypeDB.Storage.CommitRun

/-! A buffer on its way into the log. What is known of it when it is handed over to be committed
is known of its commit record, as long as it depends on nothing that happens after the opening
and bears the setting of the flags. -/

namespace TypeDB.Storage
open Runs Threads Storage.Database Option

variable {K V : Type*} [LinearOrder K]

def Pc.handedOver : Pc K V → Option (List (KeyspaceId × K))
  | .initialPuts todo => some todo
  | .sequencedWrite => some []
  | _ => none

theorem After.handedOver_pc (a : After) : (a.pc : Pc K V).handedOver = none := by cases a <;> rfl

theorem Pc.handedOver_of_owns {pc : Pc K V} (h : pc.stage.owns = true) : pc.handedOver = none := by
  cases pc <;> first | rfl | cases h

theorem Pc.stage_of_handedOver {pc : Pc K V} {todo : List (KeyspaceId × K)}
    (h : pc.handedOver = some todo) : pc.stage = .reading := by
  cases pc <;> first | rfl | cases h

theorem OperationsBuffer.mem_puts {operations : OperationsBuffer K V} {i : KeyspaceId} {k : K}
    {value : V} {known : Bool} (h : (operations.writes i).get? k = some (.put value known)) :
    (i, k) ∈ operations.puts := by
  simp only [OperationsBuffer.puts, List.mem_flatMap, List.mem_filterMap]
  exact ⟨i, List.mem_finRange i, (k, .put value known), OrderedMap.mem_entries.mpr h, rfl⟩

variable [DecidableEq V]

theorem step_handedOver {st st' : MVCCStorage K V} {t t' : Transaction K V}
    (h : t.step st = some (st', t')) (hpc : ∀ todo, t.pc ≠ .initialPuts todo) :
    t'.pc.handedOver = none := by
  unfold Transaction.step at h
  dsimp only at h
  repeat' split at h
  all_goals first
    | contradiction
    | cases h
      rfl
    | cases h
      exact After.handedOver_pc _
    | exact Pc.handedOver_of_owns (handle_frame (some.inj h)).2.1
    | exact absurd (by assumption) (hpc _)

section Sources
variable {first n i : Nat} {db db' : Database K V} {a : Action K V} {r : CommitRecord K V}
  {todo : List (KeyspaceId × K)}

inductive Arrives (db : Database K V) (a : Action K V) (i : Nat) :
    List (KeyspaceId × K) → Transaction K V → Prop
  | stays {todo : List (KeyspaceId × K)} (ha : a.thread ≠ some i)
      (hpc : (db.threads i).pc.handedOver = some todo) : Arrives db a i todo (db.threads i)
  | commit {operations : OperationsBuffer K V} (ha : a = .commit i operations)
      (hpc : (db.threads i).pc = .opened) :
      Arrives db a i operations.puts
        { db.threads i with pc := .initialPuts operations.puts, operations := operations }
  | setFlag {j : KeyspaceId} {k : K} {todo : List (KeyspaceId × K)} (ha : a = .run i)
      (hpc : (db.threads i).pc = .initialPuts ((j, k) :: todo)) :
      Arrives db a i todo { db.threads i with
        pc := .initialPuts todo
        operations := (db.threads i).operations.setReinsert j k
          ((db.threads i).initialFlag db.shared j k) }
  | lastFlag (ha : a = .run i) (hpc : (db.threads i).pc = .initialPuts []) :
      Arrives db a i [] ((db.threads i).goto .sequencedWrite)

theorem arrives_of_step (hstep : db.step a = some db')
    (hi : (db'.threads i).pc.handedOver = some todo) : Arrives db a i todo (db'.threads i) := by
  by_cases ha : a.thread = some i
  swap
  · rw [step_threads hstep ha] at hi ⊢
    exact .stays ha hi
  cases step_cases hstep with
  | sync => cases ha
  | call j a t hcall =>
    obtain rfl := some.inj (hcall.thread.symm.trans ha)
    rw [System.move_self] at hi ⊢
    cases hcall with
    | commit operations hpc =>
      obtain rfl := some.inj hi
      exact .commit rfl hpc
    | _ => cases hi
  | run j st t hthread =>
    obtain rfl := some.inj ha
    rw [System.move_self] at hi ⊢
    by_cases hpc : ∃ todo, (db.threads j).pc = .initialPuts todo
    · obtain ⟨puts, hpc⟩ := hpc
      simp only [Transaction.step, hpc] at hthread
      cases puts <;> cases hthread <;> obtain rfl := some.inj hi
      · exact .lastFlag rfl hpc
      · exact .setFlag rfl hpc
    · rw [step_handedOver hthread fun todo htodo => hpc ⟨todo, htodo⟩] at hi
      cases hi

/-- A commit record is in the log already, or it is the buffer of the thread that takes the next
number. -/
theorem commitAt_of_step (h : db.Ok first) (hstep : db.step a = some db')
    (hr : db'.shared.log.commitAt n = some r) :
    db.shared.log.commitAt n = some r ∨ n = db.shared.nextSequenceNumber ∧
      ∃ i, a = .run i ∧ (db.threads i).pc = .sequencedWrite ∧ r = (db.threads i).commitRecord := by
  obtain ⟨hok, hev⟩ := h.step hstep
  rcases Nat.lt_or_ge n db.shared.nextSequenceNumber with hn | hn
  · exact .inl (hev.commits n hn ▸ hr)
  right
  have hlt := (hok.shared.wellFormed.bounds hr).2
  have hpos := hok.shared.watermark_lt_next
  have hnew : db'.shared.nextSequenceNumber ≠ db.shared.nextSequenceNumber := by omega
  cases step_cases hstep with
  | call i a t hcall | sync => exact absurd rfl hnew
  | run i st t hthread =>
    have hpc : (db.threads i).pc = .sequencedWrite := by
      by_contra hpc
      exact hnew (step_next hthread hpc)
    have hopen := ((h.own i).at_pc hpc).1
    simp only [Transaction.step, hpc] at hthread
    cases hthread
    obtain ⟨-, -, -, hrecord, -⟩ :=
      h.shared.sequencedWrite (r := (db.threads i).commitRecord) hopen
    obtain rfl : n = db.shared.nextSequenceNumber := by
      change n ≤ db.shared.nextSequenceNumber + 1 - 1 at hlt
      omega
    exact ⟨rfl, i, rfl, hpc, (some.inj (hrecord.symm.trans hr)).symm⟩

end Sources

/-- A property of a commit record, and of a buffer with the puts whose flags are still to be set,
that only looks at the log up to the opening. -/
structure Carried (P : Log K V → List (KeyspaceId × K) → CommitRecord K V → Prop) : Prop where
  congr : ∀ {log log' : Log K V} {todo r},
    (∀ n ≤ r.openSequenceNumber, log'.commitAt n = log.commitAt n) → P log todo r → P log' todo r
  setFlag : ∀ {first} {st : MVCCStorage K V} {t : Transaction K V} {i k todo}, StorageOk first st →
    t.openSequenceNumber ≤ st.watermark → P st.log ((i, k) :: todo) t.commitRecord →
    P st.log todo ⟨t.operations.setReinsert i k (t.initialFlag st i k), t.openSequenceNumber⟩

/-- The property of what is on its way into the log, and of what came into it after `base`. -/
structure Carries (P : Log K V → List (KeyspaceId × K) → CommitRecord K V → Prop)
    (first base : Nat) (db : Database K V) : Prop where
  ok : db.Ok first
  logged : ∀ n r, base < n → db.shared.log.commitAt n = some r → P db.shared.log [] r
  pending : ∀ i todo, (db.threads i).pc.handedOver = some todo →
    P db.shared.log todo (db.threads i).commitRecord

section Carries
variable {P : Log K V → List (KeyspaceId × K) → CommitRecord K V → Prop} {first base : Nat}
  {db db' : Database K V} {a : Action K V}

omit [DecidableEq V] in
theorem Database.Ok.open_le {i : Nat} {todo : List (KeyspaceId × K)} (h : db.Ok first)
    (hi : (db.threads i).pc.handedOver = some todo) :
    (db.threads i).openSequenceNumber ≤ db.shared.watermark := by
  have hs := (h.own i).stage
  rw [Pc.stage_of_handedOver hi] at hs
  exact hs

theorem Carries.step (hP : Carried P) (h : Carries P first base db)
    (hcommit : ∀ i operations, a = .commit i operations → (db.threads i).pc = .opened →
      P db.shared.log operations.puts ⟨operations, (db.threads i).openSequenceNumber⟩)
    (hstep : db.step a = some db') : Carries P first base db' := by
  obtain ⟨hok, hev⟩ := h.ok.step hstep
  have hcongr : ∀ {todo r}, r.openSequenceNumber < db.shared.nextSequenceNumber →
      P db.shared.log todo r → P db'.shared.log todo r := fun hopen =>
    hP.congr fun n hn => hev.commits n (hn.trans_lt hopen)
  have hnext := h.ok.shared.watermark_lt_next
  refine ⟨hok, fun n r hn hr => ?_, fun i todo hi => ?_⟩
  · rcases commitAt_of_step h.ok hstep hr with hold | ⟨rfl, i, rfl, hpc, rfl⟩
    · refine hcongr ?_ (h.logged n r hn hold)
      have hlt := (h.ok.shared.wellFormed.bounds hold).2
      have hopen := h.ok.shared.wellFormed.open_lt hold
      omega
    · have hi : (db.threads i).pc.handedOver = some [] := by rw [hpc]; rfl
      exact hcongr ((h.ok.open_le hi).trans_lt hnext) (h.pending i [] hi)
  · have harrives := arrives_of_step hstep hi
    generalize db'.threads i = t at harrives hi
    cases harrives with
    | stays _ hpc => exact hcongr ((h.ok.open_le hpc).trans_lt hnext) (h.pending i todo hpc)
    | commit ha hpc =>
      have hopen : (db.threads i).openSequenceNumber ≤ db.shared.watermark :=
        ((h.ok.own i).at_pc hpc).1
      exact hcongr (hopen.trans_lt hnext) (hcommit i _ ha hpc)
    | setFlag _ hpc =>
      have hpending : (db.threads i).pc.handedOver = some _ := congrArg Pc.handedOver hpc
      have hopen := h.ok.open_le hpending
      exact hcongr (hopen.trans_lt hnext) (hP.setFlag h.ok.shared hopen (h.pending i _ hpending))
    | lastFlag _ hpc =>
      have hpending : (db.threads i).pc.handedOver = some _ := congrArg Pc.handedOver hpc
      exact hcongr ((h.ok.open_le hpending).trans_lt hnext) (h.pending i _ hpending)

omit [DecidableEq V] in
theorem Carries.mono {P' : Log K V → List (KeyspaceId × K) → CommitRecord K V → Prop}
    (h : Carries P first base db) (hP : ∀ {log todo r}, P log todo r → P' log todo r) :
    Carries P' first base db :=
  ⟨h.ok, fun n r hn hr => hP (h.logged n r hn hr), fun i todo hi => hP (h.pending i todo hi)⟩

omit [DecidableEq V] in
theorem carries_create : Carries P first base (create first : Database K V) :=
  ⟨ok_create first, fun _ _ _ => nofun, fun _ _ => nofun⟩

end Carries

/-- What a buffer keeps while its flags are set. -/
abbrev Buffered (K V : Type*) [LinearOrder K] :=
  (KeyspaceId → OrderedMap K (Write V)) × OrderedMap K LockType

def OperationsBuffer.buffered (operations : OperationsBuffer K V) : Buffered K V :=
  (operations.writes, operations.locks)

/-- Any two buffers, on their way into the log or in it after `base`, are in the relation; of two in
the log only if `G` holds of the number the later one was opened at and the number of the other. -/
structure Separate (G : Nat → Nat → Prop) (base : Nat)
    (R : Buffered K V → Buffered K V → Prop) (db : Database K V) : Prop where
  logged : ∀ {n m r r'}, db.shared.log.commitAt n = some r → db.shared.log.commitAt m = some r' →
    base < m → m < n → G r.openSequenceNumber m → R r.operations.buffered r'.operations.buffered
  mixed : ∀ {i todo n r}, (db.threads i).pc.handedOver = some todo →
    db.shared.log.commitAt n = some r → base < n → G (db.threads i).openSequenceNumber n →
    R (db.threads i).operations.buffered r.operations.buffered
  pending : ∀ {i todo j todo'}, (db.threads i).pc.handedOver = some todo →
    (db.threads j).pc.handedOver = some todo' → i ≠ j →
    R (db.threads i).operations.buffered (db.threads j).operations.buffered

section Separate
variable {R : Buffered K V → Buffered K V → Prop} {G : Nat → Nat → Prop} {first base i : Nat}
  {db db' : Database K V} {a : Action K V} {todo : List (KeyspaceId × K)}

theorem buffered_of_step (hstep : db.step a = some db')
    (hi : (db'.threads i).pc.handedOver = some todo) :
    (db'.threads i).openSequenceNumber = (db.threads i).openSequenceNumber ∧
    ((∃ operations, a = .commit i operations ∧ (db.threads i).pc = .opened ∧
      (db'.threads i).operations.buffered = operations.buffered) ∨
    (∃ todo', (db.threads i).pc.handedOver = some todo') ∧
      (db'.threads i).operations.buffered = (db.threads i).operations.buffered ∧
      ¬ (a = .run i ∧ (db.threads i).pc = .sequencedWrite)) := by
  have harrives := arrives_of_step hstep hi
  generalize db'.threads i = t at harrives
  cases harrives with
  | stays ha hpc => exact ⟨rfl, .inr ⟨⟨_, hpc⟩, rfl, fun h => ha (by rw [h.1]; rfl)⟩⟩
  | commit ha hpc => exact ⟨rfl, .inl ⟨_, ha, hpc, rfl⟩⟩
  | setFlag _ hpc | lastFlag _ hpc =>
    exact ⟨rfl, .inr ⟨⟨_, congrArg Pc.handedOver hpc⟩, rfl, by simp [hpc]⟩⟩

theorem Separate.step (h : Separate G base R db) (hsymm : ∀ {w w'}, R w w' → R w' w)
    (hok : db.Ok first)
    (hcommit : ∀ i operations, a = .commit i operations → (db.threads i).pc = .opened →
      (∀ n r, db.shared.log.commitAt n = some r → base < n →
        G (db.threads i).openSequenceNumber n → R operations.buffered r.operations.buffered) ∧
      ∀ j todo, (db.threads j).pc.handedOver = some todo →
        R operations.buffered (db.threads j).operations.buffered)
    (hstep : db.step a = some db') : Separate G base R db' where
  logged {n m r r'} hn hm hbase hlt hG := by
    rcases commitAt_of_step hok hstep hn with hn | ⟨rfl, i, -, hpc, rfl⟩ <;>
      rcases commitAt_of_step hok hstep hm with hm | ⟨rfl, j, -, hpc', rfl⟩
    · exact h.logged hn hm hbase hlt hG
    · have := (hok.shared.wellFormed.bounds hn).2
      omega
    · exact h.mixed (congrArg Pc.handedOver hpc) hm hbase hG
    · exact absurd hlt (lt_irrefl _)
  mixed {i todo n r} hi hn hbase hG := by
    obtain ⟨hopen, hwrites⟩ := buffered_of_step hstep hi
    rw [hopen] at hG
    rcases commitAt_of_step hok hstep hn with hn | ⟨rfl, j, rfl, hpc, rfl⟩ <;>
      rcases hwrites with ⟨operations, ha, hopened, hw⟩ | ⟨⟨_, hi⟩, hw, hnot⟩ <;> rw [hw]
    · exact (hcommit i operations ha hopened).1 n r hn hbase hG
    · exact h.mixed hi hn hbase hG
    · cases ha
    · refine h.pending hi (congrArg Pc.handedOver hpc) ?_
      rintro rfl
      exact hnot ⟨rfl, hpc⟩
  pending {i todo j todo'} hi hj hne := by
    rcases (buffered_of_step hstep hi).2 with ⟨operations, ha, hopened, hw⟩ | ⟨⟨_, hi⟩, hw, -⟩ <;>
      rcases (buffered_of_step hstep hj).2 with
        ⟨operations', ha', hopened', hw'⟩ | ⟨⟨_, hj⟩, hw', -⟩ <;>
      rw [hw, hw']
    · rw [ha] at ha'
      cases ha'
      exact absurd rfl hne
    · exact (hcommit i operations ha hopened).2 j _ hj
    · exact hsymm ((hcommit j operations' ha' hopened').2 i _ hi)
    · exact h.pending hi hj hne

omit [DecidableEq V] in
theorem separate_create : Separate G base R (create first : Database K V) :=
  ⟨nofun, nofun, nofun⟩

end Separate
end TypeDB.Storage
