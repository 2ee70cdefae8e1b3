import Keyspace.Failure

/-!
# Retry policies

A policy allows so many retries after transient failures, waits a fixed interval before each, and
bounds every single attempt. A budget is what is left of the retries within one operation.
-/

namespace Keyspace.Retry

/-- Times are in milliseconds. -/
structure Policy where
  retries : Nat
  interval : Nat
  timeout : Nat
  deriving DecidableEq, Repr

namespace Policy

def standard : Policy := ⟨10, 100, 10000⟩

instance : Inhabited Policy := ⟨standard⟩

end Policy

/-- What is left of a budget of `remaining` if `f` is to be retried; `none` if it is not. -/
def spend (remaining : Nat) (f : Failure) : Option Nat :=
  match remaining with
  | 0 => none
  | n + 1 => if f.isTransient then some n else none

/-- A whole run of failures against one budget: for each whether it is retried, and what is left. -/
def spendAll (remaining : Nat) : List Failure → List (Bool × Nat)
  | [] => []
  | f :: fs =>
    match spend remaining f with
    | some n => (true, n) :: spendAll n fs
    | none => (false, remaining) :: spendAll remaining fs

end Keyspace.Retry
