import Keyspace.Instant
import Keyspace.Json.Shape

/-!
# Lock records

A lock is a key with a record bound to the holder's lease.
-/

namespace Keyspace

structure Lock where
  lease : Int
  /-- In seconds. -/
  ttl : Int
  acquiredAt : Instant
  /-- The revision at which the lock was taken; no part of the record. -/
  revision : Int
  deriving DecidableEq, Repr

namespace Lock

def toJson (l : Lock) : Json :=
  .obj [("Lease", .int l.lease), ("Ttl", .int l.ttl), ("Timestamp", .str l.acquiredAt.toText)]

def ofJson? (j : Json) : Option Lock := do
  let g ← j.given? ["Lease", "Ttl", "Timestamp"] true
  return ⟨← g.required "Lease" Json.int64?, ← g.required "Ttl" Json.int64?,
    ← g.required "Timestamp" fun j => j.str?.bind Instant.ofText?, 0⟩

def toBytes (l : Lock) : Bytes := Utf8.encode l.toJson.render

def ofBytes? (b : Bytes) : Option Lock := (Json.ofBytes? b).bind ofJson?

end Lock

end Keyspace
