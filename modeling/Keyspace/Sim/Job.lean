import Keyspace.Lock.Acquire
import Keyspace.Sim.Script
import Keyspace.Watch.Threshold

/-!
# Jobs

A job is something that goes on beside a client's calls: a watch, a relay of a watch, a wait for a
group, or the taking of a lock. A job does one step at a time and has none while it is blocked.
-/

namespace Keyspace.Sim

abbrev WorldProg (α : Type) := Prog Call.Answer Flight α

abbrev WorldEnv := Env Call.Answer Flight World

namespace World

def takeNext (w : World) (id : FeedId) : Next (Outcome Batch) × World :=
  let (x, s) := w.backend.store.takeNext id
  (x, { w with backend := { w.backend with store := s } })

def closeFeed (w : World) (id : FeedId) : World :=
  { w with backend := { w.backend with store := w.backend.store.closeFeed id } }

end World

/-! ## Watches -/

/-- A forwarder with the program that opens its feed, and then the feed. -/
structure WatchJob where
  forwarder : Forwarder
  opening : WorldProg (Outcome FeedId)
  feed : Option FeedId

namespace WatchJob

def start (c : Client) (r : WatchRequest) : WatchJob :=
  ⟨.start r.trim?, (c.call (.watch r.span r.start?)).run, none⟩

def cancel (j : WatchJob) : WatchJob := { j with forwarder := { j.forwarder with cancelled := true } }

def abandon (j : WatchJob) : WatchJob :=
  { j with forwarder := { j.forwarder with out := j.forwarder.out.abandon } }

/-- Gives the feed back once the forwarder has stopped. -/
def settleFeed (j : WatchJob) (w : World) : WatchJob × World :=
  match j.forwarder.isStopped, j.feed with
  | true, some id => ({ j with feed := none }, w.closeFeed id)
  | _, _ => (j, w)

def stop (j : WatchJob) (w : World) : WatchJob × World :=
  { j with forwarder := j.forwarder.stop }.settleFeed w

def take (j : WatchJob) : Next (Outcome Changes) × WatchJob :=
  let (x, out) := j.forwarder.out.take
  (x, { j with forwarder := { j.forwarder with out } })

def stepOpening (h : WorldEnv) (j : WatchJob) (w : World) : Option (WatchJob × World) :=
  if j.opening.isReady h w then
    let (p, w) := j.opening.advance h w
    match p.result? with
    | none => some ({ j with opening := p }, w)
    | some (.ok id) => some ({ j with feed := some id, forwarder := j.forwarder.opened (.ok ()) }, w)
    | some (.error e) => some ({ j with forwarder := j.forwarder.opened (.error e) }, w)
  else none

def stepListening (j : WatchJob) (w : World) : Option (WatchJob × World) :=
  match j.feed with
  | none => none
  | some id =>
    match w.takeNext id with
    | (.empty, _) => none
    | (x, w) => some ({ j with forwarder := j.forwarder.heard x }.settleFeed w)

/-- Cancellation comes before everything else. -/
def step? (h : WorldEnv) (j : WatchJob) (w : World) : Option (WatchJob × World) :=
  if j.forwarder.isStopped then none
  else if j.forwarder.cancelled then some (j.stop w)
  else match j.forwarder.phase with
  | .opening => j.stepOpening h w
  | .listening => j.stepListening w
  | .delivering x last =>
    (j.forwarder.deliver? x last).map fun f => { j with forwarder := f }.settleFeed w
  | .stopped => none

def wake (h : WorldEnv) (j : WatchJob) : Option Nat :=
  match j.forwarder.phase with
  | .opening => j.opening.wake h
  | _ => none

end WatchJob

/-! ## Relays -/

structure RelayJob where
  relay : Relay
  source : WatchJob

namespace RelayJob

def start (c : Client) (r : WatchRequest) : RelayJob := ⟨.start, .start c r⟩

def cancel (j : RelayJob) : RelayJob :=
  ⟨{ j.relay with cancelled := true }, j.source.cancel⟩

/-- A relay that stops leaves its source. -/
def set (j : RelayJob) (r : Relay) : RelayJob :=
  match r.phase with
  | .stopped => ⟨r, j.source.abandon⟩
  | _ => ⟨r, j.source⟩

def stepSource (h : WorldEnv) (j : RelayJob) (w : World) : Option (RelayJob × World) :=
  (j.source.step? h w).map fun (s, w) => ({ j with source := s }, w)

def step? (h : WorldEnv) (j : RelayJob) (w : World) : Option (RelayJob × World) :=
  match j.relay.phase with
  | .delivering x _ =>
    match j.relay.deliver? x with
    | some r => some (j.set r, w)
    | none => j.stepSource h w
  | .listening =>
    match j.source.take with
    | (.empty, _) => j.stepSource h w
    | (x, s) => some (({ j with source := s }).set (j.relay.heard x), w)
  | _ => j.stepSource h w

end RelayJob

/-! ## Waits -/

structure WaitJob where
  client : Client
  wait : ThresholdWait
  reading : WorldProg (Outcome (ValueMap × Int))
  source : Option WatchJob

namespace WaitJob

def start (c : Client) (group : String) (threshold : Nat) : WaitJob :=
  ⟨c, .start group threshold, (c.members group).run, none⟩

def cancel (j : WaitJob) : WaitJob := { j with wait := { j.wait with cancelled := true } }

/-- A wait that has come to its end takes its watch along. -/
def settle (j : WaitJob) (w : World) : WaitJob × World :=
  match j.wait.outcome, j.source with
  | some _, some s => ({ j with source := none }, (s.stop w).2)
  | _, _ => (j, w)

def stepReading (h : WorldEnv) (j : WaitJob) (w : World) : Option (WaitJob × World) :=
  if j.reading.isReady h w then
    let (p, w) := j.reading.advance h w
    match p.result? with
    | none => some ({ j with reading := p }, w)
    | some (.error e) => some ({ j with wait := j.wait.snapshot (.error e) }, w)
    | some (.ok (m, revision)) =>
      some ({ j with
        wait := j.wait.snapshot (.ok m)
        source := some (.start j.client (j.wait.watchRequest revision)) }.settle w)
  else none

def step? (h : WorldEnv) (j : WaitJob) (w : World) : Option (WaitJob × World) :=
  if j.wait.outcome.isSome then none
  else if j.wait.cancelled then some ({ j with wait := j.wait.finish (.ok .cancelled) }.settle w)
  else match j.source with
  | none => j.stepReading h w
  | some s =>
    match s.take with
    | (.empty, _) => (s.step? h w).map fun (s, w) => ({ j with source := some s }, w)
    | (x, s) => some ({ j with wait := j.wait.heard x, source := some s }.settle w)

def wake (h : WorldEnv) (j : WaitJob) : Option Nat :=
  if j.wait.outcome.isSome then none
  else match j.source with
  | none => j.reading.wake h
  | some s => s.wake h

end WaitJob

/-! ## Locks -/

structure LockJob where
  taking : WorldProg (Outcome Lock)
  /-- When it came to its end. -/
  ended : Option Nat

namespace LockJob

def start (c : Client) (r : LockRequest) : LockJob := ⟨(c.acquireLock r).run, none⟩

def step? (h : WorldEnv) (j : LockJob) (w : World) : Option (LockJob × World) :=
  if j.taking.isReady h w then
    let (p, w) := j.taking.advance h w
    some (⟨p, p.result?.map fun _ => w.now⟩, w)
  else none

end LockJob

/-! ## All kinds -/

inductive Job
  | watch (j : WatchJob)
  | relay (j : RelayJob)
  | wait (j : WaitJob)
  | lock (j : LockJob)

namespace Job

def step? (h : WorldEnv) (w : World) : Job → Option (Job × World)
  | watch j => (j.step? h w).map fun (j, w) => (watch j, w)
  | relay j => (j.step? h w).map fun (j, w) => (relay j, w)
  | wait j => (j.step? h w).map fun (j, w) => (wait j, w)
  | lock j => (j.step? h w).map fun (j, w) => (lock j, w)

/-- When a blocked job may go on by itself. -/
def wake (h : WorldEnv) : Job → Option Nat
  | watch j => j.wake h
  | relay j => j.source.wake h
  | wait j => j.wake h
  | lock j => j.taking.wake h

def cancel : Job → Job
  | watch j => watch j.cancel
  | relay j => relay j.cancel
  | wait j => wait j.cancel
  | lock j => lock j

/-- Nobody receives what the job delivers any more. -/
def abandon : Job → Job
  | watch j => watch j.abandon
  | relay j => relay { j with relay := { j.relay with out := j.relay.out.abandon } }
  | j => j

end Job

end Keyspace.Sim
