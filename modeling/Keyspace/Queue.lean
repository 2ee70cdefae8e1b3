/-!
# Queues

What a taker finds in a queue, and channels: queues of bounded size between a sender and a receiver,
either of which may go away.
-/

namespace Keyspace

variable {α : Type}

/-- What there is to take. -/
inductive Next (α : Type)
  | item (x : α)
  /-- Nothing yet. -/
  | empty
  /-- Nothing, and there will be nothing more. -/
  | ended

def Next.toList : Next α → List α
  | item x => [x]
  | empty | ended => []

structure Channel (α : Type) where
  capacity : Nat
  items : List α
  /-- The sender is gone. -/
  closed : Bool
  /-- The receiver is gone. -/
  abandoned : Bool

namespace Channel

def ofCapacity (n : Nat) : Channel α := ⟨n, [], false, false⟩

def isFull (c : Channel α) : Bool := c.capacity ≤ c.items.length

def send (c : Channel α) (x : α) : Channel α := { c with items := c.items ++ [x] }

def close (c : Channel α) : Channel α := { c with closed := true }

def abandon (c : Channel α) : Channel α := { c with abandoned := true }

/-- What was sent before the sender went can still be taken. -/
def take (c : Channel α) : Next α × Channel α :=
  match c.items with
  | x :: items => (.item x, { c with items })
  | [] => (if c.closed then .ended else .empty, c)

end Channel

end Keyspace
