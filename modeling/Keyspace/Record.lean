import Keyspace.SortedMap
import Keyspace.Text.Affix
import Keyspace.Text.Utf8

/-!
# Records

A record is a key as the store holds it. An entry is a record whose key is read as text, and a
listing holds entries by key. `Listing.valueMap` keeps only keys and values.
-/

namespace Keyspace

structure Record where
  key : Bytes
  value : Bytes
  /-- Revision at which the key came into being. -/
  createRevision : Int
  /-- Revision of the last write. -/
  modRevision : Int
  /-- Writes since the key came into being. -/
  version : Int
  /-- The lease the key is bound to, 0 for none. -/
  lease : Int
  deriving DecidableEq, Repr

structure Entry where
  key : String
  value : Bytes
  version : Int
  createRevision : Int
  modRevision : Int
  lease : Int
  deriving DecidableEq, Repr

namespace Entry

def ofRecord (r : Record) : Entry :=
  ⟨Utf8.decodeLossy r.key, r.value, r.version, r.createRevision, r.modRevision, r.lease⟩

def valueText (e : Entry) : String := Utf8.decodeLossy e.value

end Entry

/-- A keyspace as keys and values. -/
abbrev ValueMap := SortedMap String Bytes

abbrev Listing := SortedMap String Entry

namespace Listing

def ofEntries (l : List Entry) : Listing := SortedMap.ofList (l.map fun e => (e.key, e))

def ofRecords (l : List Record) : Listing := ofEntries (l.map Entry.ofRecord)

/-- Keys and values, `head` cut off from the keys that start with it. -/
def valueMap (m : Listing) (head : String) : ValueMap :=
  SortedMap.ofList (m.entries.map fun e => (Text.trimStart e.1 head, e.2.value))

end Listing

/-! ## Change events -/

inductive EventKind
  | put
  | delete
  deriving DecidableEq, Repr

/-- One change. That of a deletion carries the key and the revision only. -/
structure Event where
  kind : EventKind
  record : Record
  deriving DecidableEq, Repr

/-- The changes committed at one revision, in commit order. -/
structure Batch where
  revision : Int
  events : List Event
  deriving DecidableEq, Repr

end Keyspace
