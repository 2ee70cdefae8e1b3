import Keyspace.Backend
import Keyspace.Prog

/-!
# Scripted worlds

A world is a backend with a clock that moves only when everybody waits, and rules that make calls
slow, lost, failing or answered by something else. The oldest rule for a call that has uses left is
the one that applies.
-/

namespace Keyspace.Sim

/-- What a rule may answer in place of the store; for a watch, all that its feed will hold. -/
@[reducible] def Canned : CallName → Type
  | .watch => List (Outcome Batch)
  | .range => RangeAnswer
  | .put => Int
  | .deleteRange => DeleteAnswer
  | .txn => TxnAnswer
  | .leaseGrant => LeaseAnswer
  | .leaseRevoke => Unit
  | .memberList => MemberList
  | .endpointStatus => EndpointStatus
  | .moveLeader => Unit

structure Act (n : CallName) where
  /-- Milliseconds to pass first. -/
  delay : Nat
  /-- Never answer, and do nothing. -/
  hang : Bool
  failure : Option Failure
  reply : Option (Canned n)
  /-- What somebody else commits just before, one transaction each. -/
  first : List Op
  /-- Never answer, but take effect. -/
  hangAfter : Bool

def Act.plain (n : CallName) : Act n := ⟨0, false, none, none, [], false⟩

structure Rule where
  on : CallName
  uses : Nat
  act : Act on

structure World where
  now : Nat
  backend : Backend
  rules : List Rule

structure Flight (c : Call) where
  /-- When it is to act; never, if there is no such time. -/
  due : Option Nat
  act : Act c.name
  /-- When its time is up, and how much time it had. -/
  deadline : Option (Nat × Nat)

namespace World

/-- The rule for a call, and the rules once it is used. -/
def meetRule (n : CallName) : List Rule → Option (Act n × List Rule)
  | [] => none
  | r :: rs =>
    if h : r.on = n then
      if r.uses = 0 then (meetRule n rs).map fun (a, rs) => (a, r :: rs)
      else some (h ▸ r.act, { r with uses := r.uses - 1 } :: rs)
    else (meetRule n rs).map fun (a, rs) => (a, r :: rs)

def flight (c : Call) (act : Act c.name) (timeout : Option Nat) (w : World) : Flight c where
  due := if act.hang then none else some (waitEnd w.now act.delay)
  act := act
  deadline := timeout.map fun t => (w.now + t, t)

def begin (timeout : Option Nat) (c : Call) (w : World) : Flight c × World :=
  match meetRule c.name w.rules with
  | none => (w.flight c (.plain c.name) timeout, w)
  | some (act, rules) => (w.flight c act timeout, { w with rules })

/-- Past the rules. -/
def beginPlain (timeout : Option Nat) (c : Call) (w : World) : Flight c × World :=
  (w.flight c (.plain c.name) timeout, w)

def answer (w : World) (c : Call) : Outcome c.Answer × World :=
  let (r, b) := w.backend.answer w.now c
  (r, { w with backend := b })

/-- Commits the operations, one transaction each, up to the first that fails. -/
def commitEach (w : World) : List Op → Outcome Unit × World
  | [] => (.ok (), w)
  | op :: ops =>
    match w.answer (.txn (.always [op])) with
    | (.ok _, w) => w.commitEach ops
    | (.error f, w) => (.error f, w)

def cannedFeed (w : World) (items : List (Outcome Batch)) : FeedId × World :=
  let (id, s) := w.backend.store.addFeed (.single []) false items
  (id, { w with backend := { w.backend with store := s } })

def canned (w : World) : (n : CallName) → Canned n → n.Answer × World
  | .watch, items => w.cannedFeed items
  | .range, a => (a, w)
  | .put, a => (a, w)
  | .deleteRange, a => (a, w)
  | .txn, a => (a, w)
  | .leaseGrant, a => (a, w)
  | .leaseRevoke, a => (a, w)
  | .memberList, a => (a, w)
  | .endpointStatus, a => (a, w)
  | .moveLeader, a => (a, w)

def act (w : World) (c : Call) (a : Act c.name) : Outcome c.Answer × World :=
  match a.failure, a.reply with
  | some f, _ => (.error f, w)
  | none, some r =>
    let (r, w) := w.canned c.name r
    (.ok r, w)
  | none, none =>
    match w.commitEach a.first with
    | (.error f, w) => (.error f, w)
    | (.ok _, w) => w.answer c

/-- A call whose time is up fails, unless its answer comes at that very moment. -/
def timedOut {c : Call} (w : World) (f : Flight c) : Flight c ⊕ Outcome c.Answer :=
  match f.deadline with
  | none => .inl f
  | some (t, ms) => if t ≤ w.now then .inr (.error (.requestTimeout ms)) else .inl f

/-- A call that takes effect and is never answered: what precedes it may still fail. -/
def actSilently (w : World) (c : Call) (a : Act c.name) : Option Failure × World :=
  match w.commitEach a.first with
  | (.error f, w) => (some f, w)
  | (.ok _, w) => (none, (w.answer c).2)

def poll (c : Call) (f : Flight c) (w : World) : (Flight c ⊕ Outcome c.Answer) × World :=
  if f.due.any (· ≤ w.now) then
    if f.act.hangAfter && f.act.failure.isNone && f.act.reply.isNone then
      match w.actSilently c f.act with
      | (some e, w) => (.inr (.error e), w)
      | (none, w) => (w.timedOut { f with due := none }, w)
    else
      let (r, w) := w.act c f.act
      (.inr r, w)
  else (w.timedOut f, w)

def earlier : Option Nat → Option Nat → Option Nat
  | some a, some b => some (min a b)
  | a, none => a
  | none, b => b

/-- The day that the clock starts at, some time in the year 2024. -/
def epoch : Int := 1718452800

/-- The wall clock never shows a whole microsecond. -/
def today (w : World) : Instant :=
  ⟨epoch + (w.now / 1000 : Nat), w.now % 1000 * 1000000 + 123456⟩

/-- Calls meet the rules, or, if `direct`, do not. -/
def env (direct : Bool) : Env Call.Answer Flight World where
  now w := w.now
  setNow t w := { w with now := t }
  today := today
  start := if direct then beginPlain else begin
  poll := poll
  wake _ f := earlier f.due (f.deadline.map (·.1))

end World

end Keyspace.Sim
