import Keyspace.Chunked.Reader

/-!
# Writing chunked values

A new version is written chunk by chunk beside the live one; then one transaction makes its info
record live and drops the chunks of the version before.
-/

namespace Keyspace.Chunked

variable {φ : Call → Type}

inductive Source (φ : Call → Type)
  | bytes (b : Bytes)
  | reader (r : Reader φ)

def Source.take (n : Nat) : Source φ → Action Call.Answer φ (Bytes × Source φ)
  | bytes b => if b.length < n then throw (.io "early eof") else return (b.take n, bytes (b.drop n))
  | reader r => ExceptT.mk do
    let (b, r) ← r.readExact (r.left + 2) n
    return b.map (·, reader r)

/-- Writes the chunks from an index on, `left` of them. -/
def writeChunks (c : Client) (key : String) (version : Int) (size : Nat) :
    Nat → Nat → Source φ → Action Call.Answer φ Unit
  | 0, _, _ => return
  | left + 1, index, source => do
    let (b, source) ← source.take (chunkLength size c.config.chunkSize index)
    let _ ← c.put (chunkKey key version index) b
    writeChunks c key version size left (index + 1) source

/-- The transaction that makes a version live and drops the one before. -/
def commitTxn (key : String) (info : Info) (previous : Int) : Txn :=
  .always [.put (Utf8.encode (infoKey key)) info.toBytes none,
    .delete (.under (Utf8.encode (versionHead key previous)))]

/-- Stores the first `size` bytes of a source. Whatever an aborted write left of the new version is
cleared first. -/
def put (c : Client) (key : String) (size : Nat) (source : Source φ) : Action Call.Answer φ Info := do
  let p ← pin? c key
  let previous := p.elim 0 (·.info.version)
  let version := versionAfter previous
  c.clearUnder (versionHead key version)
  let count := chunkCount size c.config.chunkSize
  writeChunks c key version size count 0 source
  let info : Info := ⟨size, count, version⟩
  let a ← c.call (.txn (commitTxn key info previous))
  if !a.succeeded then
    throw (.txnFailed ("advancing " ++ key ++ " to version " ++ toString version))
  return info

/-- The info record and all chunks of all versions go in one transaction. -/
def deleteTxn (key : String) : Txn :=
  .always [.delete (.single (Utf8.encode (infoKey key))),
    .delete (.under (Utf8.encode (chunksHead key)))]

def delete (c : Client) (key : String) : Action Call.Answer φ Unit := do
  let _ ← c.call (.txn (deleteTxn key))

end Keyspace.Chunked
