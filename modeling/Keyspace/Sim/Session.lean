import Keyspace.Chunked.Write
import Keyspace.Leadership
import Keyspace.Sim.Job

/-!
# Sessions

A session is a client in a scripted world, with the jobs it has started and what it holds by name:
feeds, waits, locks and readers. Time passes only while the client waits (`run`, `sleep`, `waitFor`);
otherwise jobs run until all are blocked (`settle`). Jobs take turns in the order in which they were
last blocked.
-/

namespace Keyspace.Sim

abbrev JobId := Nat

/-- A feed of the store itself, or the channel of a job. -/
inductive FeedHandle
  | store (id : FeedId)
  | job (id : JobId)

structure ResultHandle where
  job : JobId
  collected : Bool

structure Session where
  world : World
  client : Client
  /-- The client's calls do not meet the rules. -/
  direct : Bool
  jobs : List (JobId × Job)
  nextJob : JobId
  feeds : List (String × FeedHandle)
  waits : List (String × ResultHandle)
  locks : List (String × ResultHandle)
  cancellable : List (String × JobId)
  readers : List (String × Chunked.Reader Flight)

/-- An entry of a table of names; a new one takes the place of an old one. -/
def bindName {α : Type} (name : String) (a : α) (l : List (String × α)) : List (String × α) :=
  (name, a) :: l.filter (·.1 ≠ name)

def findName {α : Type} (name : String) (l : List (String × α)) : Option α :=
  (l.find? (·.1 = name)).map (·.2)

/-- More steps, or moments of time, than anything takes. -/
def patience : Nat := 100000000

namespace Session

def start (config : Config) (members : List String) (direct : Bool) : Session where
  world := ⟨0, .ofMembers members, []⟩
  client := .ofConfig config
  direct := direct
  jobs := []
  nextJob := 0
  feeds := []
  waits := []
  locks := []
  cancellable := []
  readers := []

def env (s : Session) : WorldEnv := World.env s.direct

def now (s : Session) : Nat := s.world.now

def store (s : Session) : Store := s.world.backend.store

/-! ## Jobs -/

/-- A step of the first job that has one; the job then goes to the end of the line. -/
def stepJobs (h : WorldEnv) (w : World) : List (JobId × Job) → Option (List (JobId × Job) × World)
  | [] => none
  | (i, j) :: js =>
    match j.step? h w with
    | some (j, w) => some (js ++ [(i, j)], w)
    | none => (stepJobs h w js).map fun (js, w) => ((i, j) :: js, w)

def settleFor : Nat → Session → Session
  | 0, s => s
  | n + 1, s =>
    match stepJobs s.env s.world s.jobs with
    | none => s
    | some (jobs, world) => settleFor n { s with jobs, world }

/-- Lets the jobs run until all are blocked. -/
def settle (s : Session) : Session := s.settleFor patience

/-- When the first of the blocked jobs may go on. -/
def wake (s : Session) : Option Nat :=
  s.jobs.foldl (fun t j => World.earlier t (j.2.wake s.env)) none

def passTo (s : Session) (t : Nat) : Session := { s with world := { s.world with now := max t s.now } }

def job? (s : Session) (id : JobId) : Option Job := (s.jobs.find? (·.1 = id)).map (·.2)

def updateJob (s : Session) (id : JobId) (f : Job → Job) : Session :=
  { s with jobs := s.jobs.map fun e => if e.1 = id then (id, f e.2) else e }

def spawn (s : Session) (j : Job) : JobId × Session :=
  (s.nextJob, { s with jobs := s.jobs ++ [(s.nextJob, j)], nextJob := s.nextJob + 1 })

/-! ## Running programs -/

/-- Runs a program to its end, and the jobs whenever it is blocked; no result if it is blocked for
ever. -/
def runFor {α : Type} (h : WorldEnv) : Nat → WorldProg α → Session → Option α × Session
  | 0, _, s => (none, s)
  | n + 1, p, s =>
    let (p, w) := p.advance h s.world
    let s := { s with world := w }
    match p.result? with
    | some a => (some a, s)
    | none =>
      let s := s.settle
      match World.earlier (p.wake h) s.wake with
      | none => (none, s)
      | some t => runFor h n p (s.passTo t)

def run {α : Type} (s : Session) (p : WorldProg α) : Option α × Session := runFor s.env patience p s

/-- A single call to the store, past the client. -/
def call (s : Session) (c : Call) : Option (Outcome c.Answer) × Session :=
  runFor (World.env false) patience (.call none c .done) s

def sleep (s : Session) (ms : Nat) : Session := (s.run (Prog.wait ms)).2

/-! ## Watching -/

def watch (s : Session) (name : String) (r : WatchRequest) : Session :=
  let (id, s) := s.spawn (.watch (.start s.client r))
  { s with feeds := bindName name (.job id) s.feeds, cancellable := bindName name id s.cancellable }

/-- A watch of all keys under a head that reports diffs. -/
def watchDiffs (s : Session) (name head : String) (start : Int) : Session :=
  let (id, s) := s.spawn (.relay (.start s.client ⟨head, start, true, true⟩))
  { s with feeds := bindName name (.job id) s.feeds, cancellable := bindName name id s.cancellable }

def watchStore (s : Session) (name : String) (span : Span) (start : Option Int) :
    Option (Outcome Unit) × Session :=
  match s.call (.watch span start) with
  | (some (.ok id), s) => (some (.ok ()), { s with feeds := bindName name (.store id) s.feeds })
  | (some (.error f), s) => (some (.error f), s)
  | (none, s) => (none, s)

inductive Item
  | batch (b : Batch)
  | changes (c : Changes)
  | diff (d : Diff)

def mapNext {α β : Type} (f : α → β) : Next (Outcome α) → Next (Outcome β)
  | .item x => .item (x.map f)
  | .empty => .empty
  | .ended => .ended

def takeItem (s : Session) : FeedHandle → Next (Outcome Item) × Session
  | .store id =>
    let (x, w) := s.world.takeNext id
    (mapNext .batch x, { s with world := w })
  | .job id =>
    match s.job? id with
    | some (.watch j) =>
      let (x, j) := j.take
      (mapNext .changes x, s.updateJob id fun _ => .watch j)
    | some (.relay j) =>
      let (x, out) := j.relay.out.take
      (mapNext .diff x, s.updateJob id fun _ => .relay { j with relay := { j.relay with out } })
    | _ => (.ended, s)

/-- Takes items of a feed, `n` at most, until there is none; also whether the end was seen. -/
def drainFeed (f : FeedHandle) : Nat → Session → (List (Outcome Item) × Bool) × Session
  | 0, s => (([], false), s)
  | n + 1, s =>
    match s.settle.takeItem f with
    | (.item x, s) =>
      let ((xs, closed), s) := drainFeed f n s
      ((x :: xs, closed), s)
    | (.empty, s) => (([], false), s)
    | (.ended, s) => (([], true), s)

def drain (s : Session) (name : String) (limit : Option Nat) : (List (Outcome Item) × Bool) × Session :=
  match findName name s.feeds with
  | none => (([], true), s)
  | some f => drainFeed f (limit.getD patience) s

def cancel (s : Session) (name : String) : Session :=
  match findName name s.cancellable with
  | none => s
  | some id => s.updateJob id Job.cancel

def dropFeed (s : Session) (name : String) : Session :=
  let s' := { s with feeds := s.feeds.filter (·.1 ≠ name) }
  match findName name s.feeds with
  | none => s
  | some (.store id) => { s' with world := s.world.closeFeed id }
  | some (.job id) => s'.updateJob id Job.abandon

/-! ## Waiting for groups -/

/-- How far something is that goes on in the background. -/
inductive Progress (α : Type)
  | pending
  | collected
  | result (a : α)

def waitGroup (s : Session) (name group : String) (threshold : Nat) : Session :=
  let (id, s) := s.spawn (.wait (.start s.client group threshold))
  { s with
    waits := bindName name ⟨id, false⟩ s.waits, cancellable := bindName name id s.cancellable }

def waitOutcome (s : Session) (name : String) : Progress (Outcome WaitOutcome) :=
  match findName name s.waits with
  | none => .collected
  | some h =>
    if h.collected then .collected
    else match s.job? h.job with
    | some (.wait j) => j.wait.outcome.elim .pending .result
    | _ => .pending

/-- A result that is handed out is collected. -/
def pollWait (s : Session) (name : String) : Progress (Outcome WaitOutcome) × Session :=
  match s.waitOutcome name, findName name s.waits with
  | .result o, some h => (.result o, { s with waits := bindName name { h with collected := true } s.waits })
  | p, _ => (p, s)

/-- Passes the time until there is an outcome, at the most to a deadline. -/
def awaitOutcome (name : String) (deadline : Nat) : Nat → Session → Session
  | 0, s => s
  | n + 1, s =>
    match s.waitOutcome name with
    | .pending =>
      if deadline ≤ s.now then s
      else
        let t := (s.wake.map (min deadline)).getD deadline
        let s := s.passTo t
        if t = deadline then s else awaitOutcome name deadline n s.settle
    | _ => s

def waitFor (s : Session) (name : String) (ms : Nat) : Progress (Outcome WaitOutcome) × Session :=
  (awaitOutcome name (s.now + ms) patience s).pollWait name

/-! ## Locks in the background -/

def startLock (s : Session) (name : String) (r : LockRequest) : Session :=
  let (id, s) := s.spawn (.lock (.start s.client r))
  { s with locks := bindName name ⟨id, false⟩ s.locks }

/-- The result with the time at which it was there. -/
def pollLock (s : Session) (name : String) : Progress (Outcome Lock × Nat) × Session :=
  match findName name s.locks with
  | none => (.collected, s)
  | some h =>
    if h.collected then (.collected, s)
    else match s.job? h.job with
    | some (.lock j) =>
      match j.taking.result?, j.ended with
      | some r, some t =>
        (.result (r, t), { s with locks := bindName name { h with collected := true } s.locks })
      | _, _ => (.pending, s)
    | _ => (.pending, s)

/-! ## Readers -/

def openReader (s : Session) (name key : String) : Option (Outcome (Option Chunked.Pin)) × Session :=
  match s.run (Chunked.open? s.client key).run with
  | (some (.ok (some r)), s) => (some (.ok (some r.pin)), { s with readers := bindName name r s.readers })
  | (some (.ok none), s) => (some (.ok none), s)
  | (some (.error f), s) => (some (.error f), s)
  | (none, s) => (none, s)

/-- Runs a program of a reader that gives it back. -/
def withReader {α : Type} (s : Session) (name : String)
    (f : Chunked.Reader Flight → WorldProg (α × Chunked.Reader Flight)) : Option α × Session :=
  match findName name s.readers with
  | none => (none, s)
  | some r =>
    match s.run (f r) with
    | (some (a, r), s) => (some a, { s with readers := bindName name r s.readers })
    | (none, s) => (none, s)

def takeReader (s : Session) (name : String) : Option (Chunked.Reader Flight) × Session :=
  (findName name s.readers, { s with readers := s.readers.filter (·.1 ≠ name) })

def pollReader (s : Session) (name : String) (n : Nat) : Chunked.Reader.Poll × Session :=
  match findName name s.readers with
  | none => (.ready [], s)
  | some r =>
    let (p, r, w) := r.poll s.env n (r.left + 1) s.world
    (p, { s with world := w, readers := bindName name r s.readers })

/-- The size that a value read from a reader is taken to have: as announced, in 64 bits. -/
def readerSize (r : Chunked.Reader Flight) : Nat :=
  (r.pin.info.size % 18446744073709551616).toNat

end Session

end Keyspace.Sim
