import Mathlib.Data.List.Lex
import TypeDB.Executor.Rows

/-! Sorted iterators over the tuples that an instruction finds. -/

namespace TypeDB.Executor
variable {α : Type} [LinearOrder α]

inductive VariableMode
  | input | output | count | check
  deriving DecidableEq

abbrev Tuple (α : Type) := List (VariableValue α)

structure TupleLayout where
  positions : List (Option ExecutorVariable)
  modes : ExecutorVariable → VariableMode

namespace TupleLayout

variable (layout : TupleLayout)

def mode? (i : Nat) : Option VariableMode :=
  ((layout.positions[i]?).join).map layout.modes

def isEnumerated (i : Nat) : Bool :=
  layout.mode? i = some .input || layout.mode? i = some .output

def isCounted (i : Nat) : Bool := layout.mode? i = some .count

def tupleLength : Nat := layout.positions.length

def lastEnumerated : Option Nat :=
  ((List.range layout.tupleLength).filter layout.isEnumerated).getLast?

def lastEnumeratedOrCounted : Option Nat :=
  ((List.range layout.tupleLength).filter fun i =>
    layout.isEnumerated i || layout.isCounted i).getLast?

end TupleLayout

structure TupleIterator (α : Type) where
  layout : TupleLayout
  tuples : List (Tuple α)

namespace TupleIterator

variable (it : TupleIterator α)

def advanceSingle : TupleIterator α := { it with tuples := it.tuples.tail }

/-- Passes over the tuples that begin with the same components; at least the sort variable is
compared. -/
def skipUntilChanges (changeWidth : Nat) : TupleIterator α :=
  if changeWidth = it.layout.tupleLength then it.advanceSingle
  else match it.tuples with
    | [] => it
    | current :: rest =>
      { it with tuples := rest.dropWhile fun t =>
          t.take (max 1 changeWidth) = current.take (max 1 changeWidth) }

/-- The loop of `count_until_enumerated_changes`, which passes over a tuple in each round. -/
def countLoop (enumerated : Tuple α) (lastEnumerated pastCounted : Nat) :
    Nat → Nat → TupleIterator α → Nat × TupleIterator α
  | 0, count, it => (count, it)
  | fuel + 1, count, it =>
    let it := it.skipUntilChanges pastCounted
    match it.tuples with
    | [] => (count, it)
    | t :: _ =>
      if t.take (lastEnumerated + 1) ≠ enumerated then (count, it)
      else countLoop enumerated lastEnumerated pastCounted fuel (count + 1) it

def countUntilEnumeratedChanges (lastEnumerated pastCounted : Nat) :
    Nat × TupleIterator α :=
  match it.tuples with
  | [] => (1, it)
  | current :: _ => countLoop (current.take (lastEnumerated + 1)) lastEnumerated pastCounted
      it.tuples.length 1 it

def countRest (pastCounted : Nat) : Nat → Nat → TupleIterator α → Nat × TupleIterator α
  | 0, count, it => (count, it)
  | fuel + 1, count, it =>
    if it.tuples.isEmpty then (count, it)
    else countRest pastCounted fuel (count + 1) (it.skipUntilChanges pastCounted)

/-- Advances past the current answer and returns the number of answers that are equal to it in what
is enumerated. -/
def advancePast : Nat × TupleIterator α :=
  let pastCounted := (it.layout.lastEnumeratedOrCounted.map (· + 1)).getD 0
  if it.layout.lastEnumerated = it.layout.lastEnumeratedOrCounted then
    (1, it.skipUntilChanges pastCounted)
  else match it.layout.lastEnumerated with
    | some lastEnumerated => it.countUntilEnumeratedChanges lastEnumerated pastCounted
    | none =>
      if it.layout.lastEnumeratedOrCounted = some (it.layout.tupleLength - 1) then
        (it.tuples.length, { it with tuples := [] })
      else countRest pastCounted it.tuples.length 1 it

end TupleIterator

end TypeDB.Executor
