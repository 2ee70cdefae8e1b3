import Keyspace.Record
import Keyspace.Span

/-!
# Transactions

A transaction evaluates its conditions against one state and then commits one of two lists of
operations at a single revision.
-/

namespace Keyspace

inductive Relation
  | equal
  | notEqual
  | greater
  | less
  deriving DecidableEq, Repr

/-- The side of a record that a condition looks at, with what it is held against. -/
inductive Target
  | version (expected : Int)
  | createRevision (expected : Int)
  | modRevision (expected : Int)
  | value (expected : Bytes)
  | lease (expected : Int)
  deriving DecidableEq, Repr

structure Condition where
  key : Bytes
  target : Target
  relation : Relation
  deriving DecidableEq, Repr

/-- `actual` stands in the relation to `expected`. -/
def Relation.holds {κ : Type} [DecidableEq κ] [KeyOrder κ] (r : Relation) (actual expected : κ) : Bool :=
  match r with
  | equal => actual = expected
  | notEqual => actual ≠ expected
  | greater => KeyOrder.lt expected actual
  | less => KeyOrder.lt actual expected

namespace Condition

/-- An absent key has version, revisions and lease 0 and an empty value. -/
def holds (c : Condition) (r : Option Record) : Bool :=
  match c.target with
  | .version n => c.relation.holds (r.elim 0 (·.version)) n
  | .createRevision n => c.relation.holds (r.elim 0 (·.createRevision)) n
  | .modRevision n => c.relation.holds (r.elim 0 (·.modRevision)) n
  | .lease n => c.relation.holds (r.elim 0 (·.lease)) n
  | .value v => c.relation.holds (r.elim [] (·.value)) v

def keyPresent (key : String) (present : Bool) : Condition :=
  ⟨Utf8.encode key, .version 0, if present then .greater else .equal⟩

def valueIs (key : String) (relation : Relation) (value : Bytes) : Condition :=
  ⟨Utf8.encode key, .value value, relation⟩

def versionIs (key : String) (relation : Relation) (version : Int) : Condition :=
  ⟨Utf8.encode key, .version version, relation⟩

end Condition

inductive Op
  | put (key value : Bytes) (lease : Option Int)
  | delete (span : Span)
  deriving DecidableEq, Repr

structure Txn where
  conditions : List Condition
  success : List Op
  failure : List Op
  deriving DecidableEq, Repr

namespace Txn

def always (ops : List Op) : Txn := ⟨[], ops, []⟩

def provided (conditions : List Condition) (ops : List Op) : Txn := ⟨conditions, ops, []⟩

end Txn

end Keyspace
