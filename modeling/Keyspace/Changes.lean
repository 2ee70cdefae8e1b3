import Keyspace.Record

/-!
# Changes of a watched keyspace

The changes of one batch, one fate for each key: the last event of a key decides it.
-/

namespace Keyspace

structure Changes where
  upserts : SortedMap String Entry
  /-- In the order in which they came. -/
  deletions : List String
  deriving DecidableEq

namespace Changes

def empty : Changes := ⟨.empty, []⟩

def isEmpty (c : Changes) : Bool := c.upserts.isEmpty && c.deletions.isEmpty

/-- The entry of an event, `trim` cut off from the key. -/
def entryOf (trim : Option String) (e : Event) : Entry :=
  let entry := Entry.ofRecord e.record
  match trim with
  | none => entry
  | some head => { entry with key := Text.trimStart entry.key head }

def add (c : Changes) (kind : EventKind) (e : Entry) : Changes :=
  match kind with
  | .put => ⟨c.upserts.insert e.key e, c.deletions.filter (· ≠ e.key)⟩
  | .delete =>
    ⟨c.upserts.erase e.key,
      if c.deletions.contains e.key then c.deletions else c.deletions ++ [e.key]⟩

def ofBatch (trim : Option String) (b : Batch) : Changes :=
  b.events.foldl (fun c e => c.add e.kind (entryOf trim e)) empty

def applyTo (c : Changes) (m : ValueMap) : ValueMap :=
  (c.deletions.foldl SortedMap.erase m).insertAll
    (c.upserts.entries.map fun e => (e.1, e.2.value))

end Changes

end Keyspace
