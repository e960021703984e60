import Mathlib.Algebra.Order.Ring.Nat
import Mathlib.Order.WithBot

/-! Rows of the query executor. -/

namespace TypeDB.Executor

/-- A type, thing or value, or nothing. Nothing comes before everything else. -/
abbrev VariableValue (α : Type) := WithBot α

inductive ExecutorVariable
  | rowPosition (position : Nat)
  | internal (id : Nat)
  deriving DecidableEq

structure Row (α : Type) where
  values : List (VariableValue α)
  multiplicity : Nat
  provenance : Nat
  deriving DecidableEq

def Row.get {α : Type} (row : Row α) (position : Nat) : VariableValue α :=
  row.values.getD position ⊥

end TypeDB.Executor
