import TypeDB.Storage.CommitRun

/-! Long runs by hand: a thread is driven until it waits or has returned while the others stand
still. What is driven is reached, under any condition that is checked on the way. -/

namespace TypeDB.Storage
open Runs Threads Storage.Database

variable {K V : Type*} [LinearOrder K]

def Action.isCallOf (i : Nat) : Action K V → Bool
  | .open j _ | .commit j _ | .close j => j == i
  | .run _ => false
  | .sync => true

section Calls
variable {i : Nat} {a : Action K V} (h : a.isCallOf i = true)
include h

theorem Action.ne_run (j : Nat) : a ≠ .run j := by
  rintro rfl
  cases h

theorem Action.thread_ne {j : Nat} (hj : j ≠ i) : a.thread ≠ some j := by
  cases a with
  | run k => cases h
  | sync => exact nofun
  | _ =>
    rintro ⟨⟩
    exact hj (beq_iff_eq.mp h)

end Calls

variable [DecidableEq V]

namespace Database
variable {db : Database K V}

def drive (db : Database K V) (fuel i : Nat) : Database K V :=
  System.drive Transaction.step (fun _ _ => true) db fuel i

def request (db : Database K V) (a : Action K V) : Database K V := attempt Database.step db a

def commitAlone (operations : OperationsBuffer K V) (db : Database K V) (i : Nat) :
    Database K V :=
  let db := (db.request (.open i .write)).drive 3 i
  let db := (db.request (.commit i operations)).drive 40 i
  (db.request .sync).drive 40 i

def commitEach (operations : OperationsBuffer K V) (db : Database K V) (is : List Nat) :
    Database K V := is.foldl (commitAlone operations) db

theorem reaches_drive (db : Database K V) (fuel i : Nat) : Reaches step db (db.drive fuel i) := by
  have hstep : ∀ db : Database K V, db.step (.run i) =
      ((db.threads i).step db.shared).map fun p => db.move i p.1 p.2 := fun _ => rfl
  exact System.reach_drive hstep db (fun _ _ _ => trivial) fuel

theorem reaches_request (db : Database K V) (a : Action K V) :
    Reaches step db (db.request a) := reaches_attempt step db a

theorem reaches_commitAlone (operations : OperationsBuffer K V) (db : Database K V) (i : Nat) :
    Reaches step db (commitAlone operations db i) :=
  ((reaches_request _ _).trans (reaches_drive _ _ _)).trans
    (((reaches_request _ _).trans (reaches_drive _ _ _)).trans
      ((reaches_request _ _).trans (reaches_drive _ _ _)))

theorem reaches_commitEach (operations : OperationsBuffer K V) (db : Database K V)
    (is : List Nat) : Reaches step db (commitEach operations db is) :=
  reaches_foldl (reaches_commitAlone operations) db is

def play (check : MVCCStorage K V → Transaction K V → Bool) (rests : Transaction K V → Bool) :
    Play (MVCCStorage K V) (Transaction K V) (Action K V) :=
  ⟨Transaction.step, Database.step, .run, Action.isCallOf, check, rests⟩

theorem play_keeps {check : MVCCStorage K V → Transaction K V → Bool}
    {rests : Transaction K V → Bool} {ok : Database K V → Action K V → Prop}
    (hcall : ∀ a db, (∀ i, a ≠ .run i) → ok db a)
    (hrun : ∀ i db, (∀ j ≠ i, rests (db.threads j) = true) →
      check db.shared (db.threads i) = true → ok db (.run i)) :
    (play check rests).Keeps ok where
  step_run _ _ := rfl
  others _ _ _ _ ha hstep _ hj := step_threads hstep (Action.thread_ne ha hj)
  ok_call _ a db ha := hcall a db (Action.ne_run ha)
  ok_run := hrun

end Database

def commitRound (operations : OperationsBuffer K V) (i : Nat) : Nat × List (Act (Action K V)) :=
  (i, [.call (.open i .write), .drive 3, .call (.commit i operations), .drive 40, .call .sync,
    .drive 40])

def lockOnly (k : Nat) : OperationsBuffer Nat Nat := OperationsBuffer.new.lockAdd k .exclusive

/-- Snapshot 200 is opened first. The hundred and one commits after it fill the first window and
pop it. Then the snapshot commits. -/
def pastWindow (acts : List (Act (Action Nat Nat))) : List (Nat × List (Act (Action Nat Nat))) :=
  (200, [.call (.open 200 .write), .drive 3]) :: (List.range 101).map (commitRound (lockOnly 0)) ++
    [(200, .call (.commit 200 (lockOnly 1)) :: acts)]

end TypeDB.Storage
