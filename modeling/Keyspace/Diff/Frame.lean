import Keyspace.Diff
import Keyspace.Failure

/-!
# Framed diffs

A diff travels as an overview frame with its counts and then frames of changes, each closed before
the change that would take it over the size limit. `Assembler` puts frames together again and
reports what breaks the form.
-/

namespace Keyspace.Diff

/-- How many changes of each kind are announced. -/
structure Overview where
  inserts : Nat
  updates : Nat
  deletions : Nat
  deriving DecidableEq, Repr

inductive ChangeKind
  /-- Never valid in a frame. -/
  | unspecified
  | insert
  | update
  | deletion
  deriving DecidableEq, Repr

structure Change where
  kind : ChangeKind
  key : String
  /-- Empty for a deletion. -/
  value : Bytes
  deriving DecidableEq, Repr

def Change.size (c : Change) : Nat := c.key.utf8ByteSize + c.value.length

inductive Frame
  | overview (o : Overview)
  | changes (cs : List Change)
  deriving DecidableEq, Repr

/-! ## Framing -/

def overview (d : Diff) : Overview := ⟨d.inserts.size, d.updates.size, d.deletions.size⟩

/-- Inserts, then updates, then deletions, each in key order. -/
def changes (d : Diff) : List Change :=
  d.inserts.entries.map (fun e => ⟨.insert, e.1, e.2⟩)
    ++ d.updates.entries.map (fun e => ⟨.update, e.1, e.2⟩)
    ++ d.deletions.keys.map fun k => ⟨.deletion, k, []⟩

def totalSize (cs : List Change) : Nat := cs.foldr (fun c n => c.size + n) 0

/-- Changes packed into frames, `held` being the frame that is still open. -/
def pack (limit : Nat) (held : List Change) : List Change → List (List Change)
  | [] => if held.isEmpty then [] else [held]
  | c :: cs =>
    if !held.isEmpty && limit < totalSize held + c.size then held :: pack limit [c] cs
    else pack limit (held ++ [c]) cs

def frames (d : Diff) (limit : Nat) : List Frame :=
  .overview d.overview :: (pack limit [] d.changes).map .changes

/-! ## Reassembly -/

structure Assembler where
  overview : Option Overview
  diff : Diff
  received : Overview

namespace Assembler

def start : Assembler := ⟨none, .empty, ⟨0, 0, 0⟩⟩

/-- Takes changes up to the first that is of no valid kind. -/
def accept (a : Assembler) : List Change → Except ContractError Unit × Assembler
  | [] => (.ok (), a)
  | c :: cs =>
    match c.kind with
    | .unspecified => (.error .invalidChangeType, a)
    | .insert => accept
        { a with
          diff := { a.diff with inserts := a.diff.inserts.insert c.key c.value }
          received := { a.received with inserts := a.received.inserts + 1 } } cs
    | .update => accept
        { a with
          diff := { a.diff with updates := a.diff.updates.insert c.key c.value }
          received := { a.received with updates := a.received.updates + 1 } } cs
    | .deletion => accept
        { a with
          diff := { a.diff with deletions := SortedSet.insert a.diff.deletions c.key }
          received := { a.received with deletions := a.received.deletions + 1 } } cs

/-- The changes before an invalid one stay taken. -/
def push (a : Assembler) : Frame → Except ContractError Unit × Assembler
  | .overview o =>
    match a.overview with
    | none => (.ok (), { a with overview := some o })
    | some _ => (.error .frameNotChanges, a)
  | .changes cs =>
    match a.overview with
    | none => (.error .firstFrameNotOverview, a)
    | some _ => a.accept cs

/-- The diff, if both the changes received and the distinct keys are as many as announced. -/
def finish (a : Assembler) : Except ContractError Diff :=
  match a.overview with
  | none => .error .firstFrameNotOverview
  | some o => if o ≠ a.received || o ≠ a.diff.overview then .error .opsMiscount else .ok a.diff

/-- Pushes every frame, also after an error, and gives each answer. -/
def pushAll (a : Assembler) : List Frame → List (Except ContractError Unit) × Assembler
  | [] => ([], a)
  | f :: fs =>
    let (r, a) := a.push f
    let (rs, a) := pushAll a fs
    (r :: rs, a)

/-- Stops at the first error. -/
def run (a : Assembler) : List Frame → Except ContractError Diff
  | [] => a.finish
  | f :: fs =>
    match a.push f with
    | (.ok (), a) => run a fs
    | (.error e, _) => .error e

end Assembler

def ofFrames? (fs : List Frame) : Except ContractError Diff := Assembler.start.run fs

/-! ## Transport

The receiver reassembles what it is sent until the sender's side closes. A sender that is cancelled
has sent some of its first frames. -/

def receive (fs : List Frame) : Outcome Diff := (ofFrames? fs).mapError .contract

/-- What arrives of `d` when the sender is stopped after `relayed` frames, if at all. -/
def transfer (d : Diff) (limit : Nat) (relayed : Option Nat) : Outcome Diff :=
  receive (match relayed with
    | none => d.frames limit
    | some n => (d.frames limit).take n)

end Keyspace.Diff
