import Keyspace.Json.Shape

/-!
# Chunked values: layout

A chunked value at key `K` has an info record at `K/info` and its chunks, by version and index,
under `K/chunks/`.
-/

namespace Keyspace.Chunked

structure Info where
  size : Int
  count : Int
  version : Int
  deriving DecidableEq, Repr

namespace Info

def toJson (i : Info) : Json :=
  .obj [("Size", .int i.size), ("Count", .int i.count), ("Version", .int i.version)]

def ofJson? (j : Json) : Option Info := do
  let g ← j.given? ["Size", "Count", "Version"] true
  return ⟨← g.required "Size" Json.int64?, ← g.required "Count" Json.int64?,
    ← g.required "Version" Json.int64?⟩

def toBytes (i : Info) : Bytes := Utf8.encode i.toJson.render

def ofBytes? (b : Bytes) : Option Info := (Json.ofBytes? b).bind ofJson?

end Info

/-- The version after one. Versions are 64-bit words: after the last one comes the first. -/
def versionAfter (version : Int) : Int := (version + 1).bmod Int64.size

def infoKey (key : String) : String := key ++ "/info"

/-- All chunks of all versions are under this. -/
def chunksHead (key : String) : String := key ++ "/chunks/"

/-- The chunks of one version are under this. -/
def versionHead (key : String) (version : Int) : String := key ++ "/chunks/v" ++ toString version ++ "/"

def chunkKey (key : String) (version index : Int) : String :=
  versionHead key version ++ toString index

/-! ## Cutting -/

def chunkCount (size chunkSize : Nat) : Nat := size / chunkSize + if size % chunkSize = 0 then 0 else 1

/-- The length of a chunk; all but the last are full. -/
def chunkLength (size chunkSize index : Nat) : Nat := min chunkSize (size - index * chunkSize)

end Keyspace.Chunked
