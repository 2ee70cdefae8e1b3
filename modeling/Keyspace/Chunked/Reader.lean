import Keyspace.Chunked.Info
import Keyspace.Client

/-!
# Reading chunked values

A reader is pinned to the info record and the revision that it was opened at, and fetches chunk
after chunk at that revision. A fetch that was begun and not finished stays with the reader.
-/

namespace Keyspace.Chunked

variable {φ : Call → Type}

structure Pin where
  info : Info
  revision : Int
  deriving DecidableEq, Repr

structure Reader (φ : Call → Type) where
  client : Client
  key : String
  pin : Pin
  /-- The index of the next chunk to fetch. -/
  next : Int
  /-- What was fetched and not yet read. -/
  buffer : Bytes
  /-- A fetch that was begun. -/
  pending : Option (Prog Call.Answer φ (Outcome Bytes))

def pin? (c : Client) (key : String) : Action Call.Answer φ (Option Pin) := do
  let a ← c.call (.range (.single (Utf8.encode (infoKey key))) none)
  match a.records with
  | [] => return none
  | r :: _ =>
    match Info.ofBytes? r.value with
    | none => throw .codec
    | some info => return some ⟨info, a.revision⟩

def open? (c : Client) (key : String) : Action Call.Answer φ (Option (Reader φ)) := do
  let p ← pin? c key
  return p.map fun p => ⟨c, key, p, 0, [], none⟩

namespace Reader

def isAtEnd (r : Reader φ) : Bool := r.pin.info.count ≤ r.next

def left (r : Reader φ) : Nat := (r.pin.info.count - r.next).toNat

def fetch (r : Reader φ) : Prog Call.Answer φ (Outcome Bytes) :=
  let key := chunkKey r.key r.pin.info.version r.next
  (show Action Call.Answer φ Bytes from do
    match ← r.client.get key (some r.pin.revision) with
    | some e => return e.value
    | none => throw (.chunkMissing key r.pin.revision)).run

def fetchOrPending (r : Reader φ) : Prog Call.Answer φ (Outcome Bytes) := r.pending.getD r.fetch

def fetched (r : Reader φ) : Reader φ := { r with next := r.next + 1, pending := none }

/-! ## Waiting reads

Each gives the reader back beside what was read. -/

/-- The next chunk, or none after the last. What the buffer holds is passed over. -/
def nextChunk (r : Reader φ) : Prog Call.Answer φ (Outcome (Option Bytes) × Reader φ) :=
  if r.isAtEnd then pure (.ok none, r)
  else do
    match ← r.fetchOrPending with
    | .ok b => return (.ok (some b), r.fetched)
    | .error f => return (.error f, { r with pending := none })

/-- Fetches until there is something in the buffer; `false` if there is nothing more. -/
def fill : Nat → Reader φ → Prog Call.Answer φ (Outcome Bool × Reader φ)
  | 0, r => pure (.ok !r.buffer.isEmpty, r)
  | n + 1, r =>
    if r.buffer.isEmpty then do
      match ← r.nextChunk with
      | (.error f, r) => return (.error f, r)
      | (.ok none, r) => return (.ok false, r)
      | (.ok (some b), r) => fill n { r with buffer := b }
    else pure (.ok true, r)

def takeBuffer (n : Nat) (r : Reader φ) : Bytes × Reader φ :=
  (r.buffer.take n, { r with buffer := r.buffer.drop n })

/-- Up to `n` bytes; none only at the end, or if none were asked for. -/
def read (n : Nat) (r : Reader φ) : Prog Call.Answer φ (Outcome Bytes × Reader φ) :=
  if n = 0 then pure (.ok [], r)
  else do
    match ← r.fill (r.left + 1) with
    | (.error f, r) => return (.error f, r)
    | (.ok _, r) =>
      let (b, r) := r.takeBuffer n
      return (.ok b, r)

def chunks : Nat → Reader φ → Prog Call.Answer φ (Outcome Bytes)
  | 0, _ => pure (.ok [])
  | n + 1, r => do
    match ← r.nextChunk with
    | (.error f, _) => return .error f
    | (.ok none, _) => return .ok []
    | (.ok (some b), r) => return (← chunks n r).map (b ++ ·)

def rest (r : Reader φ) : Prog Call.Answer φ (Outcome Bytes) := do
  return (← r.chunks (r.left + 1)).map (r.buffer ++ ·)

/-- Reads on to the end or to the first failure: what was read, and the failure. -/
def drain : Nat → Reader φ → Prog Call.Answer φ ((Bytes × Option Failure) × Reader φ)
  | 0, r => pure ((r.buffer, none), { r with buffer := [] })
  | n + 1, r => do
    let b := r.buffer
    match ← nextChunk { r with buffer := [] } with
    | (.error f, r) => return ((b, some f), r)
    | (.ok none, r) => return ((b, none), r)
    | (.ok (some c), r) =>
      let ((bs, f), r) ← drain n { r with buffer := c }
      return ((b ++ bs, f), r)

def stream (r : Reader φ) : Prog Call.Answer φ ((Bytes × Option Failure) × Reader φ) :=
  r.drain (r.left + 1)

def readExact : Nat → Nat → Reader φ → Prog Call.Answer φ (Outcome Bytes × Reader φ)
  | 0, _, r => pure (.error (.io "early eof"), r)
  | k + 1, n, r => do
    if n ≤ r.buffer.length then
      let (b, r) := r.takeBuffer n
      return (.ok b, r)
    else
      let b := r.buffer
      match ← nextChunk { r with buffer := [] } with
      | (.error f, r) => return (.error (.io f.message), r)
      | (.ok none, r) => return (.error (.io "early eof"), r)
      | (.ok (some c), r) =>
        let (bs, r) ← readExact k (n - b.length) { r with buffer := c }
        return (bs.map (b ++ ·), r)

/-! ## Reads that do not wait -/

inductive Poll
  | ready (b : Bytes)
  | pending
  | failed (f : Failure)

/-- Up to `n` bytes, if they are there by now. -/
def poll {W : Type} (h : Env Call.Answer φ W) (n : Nat) : Nat → Reader φ → W → Poll × Reader φ × W
  | 0, r, w => (.ready [], r, w)
  | k + 1, r, w =>
    if !r.buffer.isEmpty then
      let (b, r) := r.takeBuffer n
      (.ready b, r, w)
    else if r.isAtEnd then (.ready [], r, w)
    else
      match r.fetchOrPending.advance h w with
      | (.done (.ok b), w) => poll h n k { r.fetched with buffer := b } w
      | (.done (.error f), w) => (.failed f, { r with pending := none }, w)
      | (p, w) => (.pending, { r with pending := some p }, w)

end Reader

end Keyspace.Chunked
