import Keyspace.Json.Reader
import Keyspace.SortedMap

/-!
# Shapes of JSON values

What a value has to look like to be read as a number in a range, as bytes, as a structure or as one
of several variants. A structure may be an object, whose unknown fields are passed over, or an array
in field order.
-/

namespace Keyspace.Json

def intIn? (low high : Int) : Json → Option Int
  | int n => if low ≤ n && n ≤ high then some n else none
  | _ => none

def int64? : Json → Option Int :=
  intIn? (-9223372036854775808) 9223372036854775807

def nat64? (j : Json) : Option Nat :=
  (intIn? 0 18446744073709551615 j).map Int.toNat

def byte? (j : Json) : Option UInt8 := (intIn? 0 255 j).map fun n => UInt8.ofNat n.toNat

def str? : Json → Option String
  | str s => some s
  | _ => none

def arr? {α : Type} (f : Json → Option α) : Json → Option (List α)
  | arr items => items.mapM f
  | _ => none

def bytes? : Json → Option Bytes := arr? byte?

def nullable? {α : Type} (f : Json → Option α) : Json → Option (Option α)
  | null => some none
  | j => (f j).map some

/-- Of fields with one name the last one stays. -/
def map? {α : Type} (f : Json → Option α) : Json → Option (SortedMap String α)
  | obj fields => (fields.mapM fun e => (f e.2).map (e.1, ·)).map SortedMap.ofList
  | _ => none

/-! ## Structures -/

/-- The declared fields of a structure as a value gives them. -/
structure Given where
  byName : Bool
  values : List (String × Option Json)

/-- A declared field that is given twice makes an object unreadable, as does, if `exact`, one item
too many an array. -/
def given? (names : List String) (exact : Bool) : Json → Option Given
  | obj fields =>
    if names.any fun n => 1 < fields.countP (·.1 = n) then none
    else some ⟨true, names.map fun n => (n, (fields.find? (·.1 = n)).map (·.2))⟩
  | arr items =>
    if exact && names.length < items.length then none
    else some ⟨false, names.zip (items.map some ++ List.replicate names.length none)⟩
  | _ => none

namespace Given

def value? (g : Given) (name : String) : Option Json :=
  ((g.values.find? (·.1 = name)).map (·.2)).join

def required {α : Type} (g : Given) (name : String) (f : Json → Option α) : Option α :=
  (g.value? name).bind f

/-- An absent field of an object is as if null; an array has to hold every item. -/
def optional {α : Type} (g : Given) (name : String) (f : Json → Option α) : Option (Option α) :=
  match g.value? name with
  | some j => nullable? f j
  | none => if g.byName then some none else none

def withDefault {α : Type} (g : Given) (name : String) (f : Json → Option α) (d : α) : Option α :=
  match g.value? name with
  | some j => f j
  | none => some d

end Given

/-! ## Variants -/

/-- The name of a variant, and its content unless the name stands alone. -/
def variant? : Json → Option (String × Option Json)
  | str s => some (s, none)
  | obj [(k, v)] => some (k, some v)
  | _ => none

/-- One of several names, alone or with null as its content. -/
def name? {α : Type} (names : List (String × α)) (j : Json) : Option α := do
  let (n, content) ← j.variant?
  match content with
  | none | some null => (names.find? (·.1 = n)).map (·.2)
  | some _ => none

/-! ## Making values -/

def ofBytes (b : Bytes) : Json := arr (b.map fun x => int x.toNat)

def ofOption {α : Type} (f : α → Json) : Option α → Json
  | none => null
  | some a => f a

end Keyspace.Json
