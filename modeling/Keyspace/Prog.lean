import Keyspace.Failure
import Keyspace.Instant

/-!
# Programs

A program makes calls, waits and looks at the clock, and ends with a result. What a call does is not
part of it: an `Env` says how calls behave. `advance` runs a program until it is blocked, and what is
left then is a program again; `complete` runs it to its end when nothing else goes on.
-/

namespace Keyspace

variable {ι : Type} {ρ φ : ι → Type} {α β W : Type}

/-- No single wait is longer: thirty years of 365 days, in milliseconds. -/
def longestWait : Nat := 946080000000

/-- When a wait ends that begins at `now`. -/
def waitEnd (now ms : Nat) : Nat := now + min ms longestWait

/-- A call `i` is answered by a `ρ i` or fails; a `φ i` is such a call under way. Times are in
milliseconds. -/
inductive Prog {ι : Type} (ρ φ : ι → Type) (α : Type) : Type
  | done (a : α)
  /-- Makes a call, which has so long to answer. -/
  | call (timeout : Option Nat) (i : ι) (k : Outcome (ρ i) → Prog ρ φ α)
  /-- Waits for a call that was made before. -/
  | await (i : ι) (c : φ i) (k : Outcome (ρ i) → Prog ρ φ α)
  | sleep (ms : Nat) (rest : Prog ρ φ α)
  | sleepUntil (time : Nat) (rest : Prog ρ φ α)
  | clock (k : Nat → Prog ρ φ α)
  | wallClock (k : Instant → Prog ρ φ α)

namespace Prog

def bind : Prog ρ φ α → (α → Prog ρ φ β) → Prog ρ φ β
  | done a, f => f a
  | call t i k, f => call t i fun r => (k r).bind f
  | await i c k, f => await i c fun r => (k r).bind f
  | sleep ms p, f => sleep ms (p.bind f)
  | sleepUntil t p, f => sleepUntil t (p.bind f)
  | clock k, f => clock fun t => (k t).bind f
  | wallClock k, f => wallClock fun t => (k t).bind f

instance : Monad (Prog ρ φ) where
  pure := done
  bind := bind

def wait (ms : Nat) : Prog ρ φ Unit := sleep ms (done ())

def now : Prog ρ φ Nat := clock done

def today : Prog ρ φ Instant := wallClock done

end Prog

/-- A program that can fail. -/
abbrev Action (ρ φ : ι → Type) := ExceptT Failure (Prog ρ φ)

/-- A failure of `a` becomes part of the result. -/
def Action.outcome (a : Action ρ φ α) : Action ρ φ (Outcome α) :=
  ExceptT.mk (a.run.bind fun r => .done (.ok r))

/-! ## Environments -/

/-- How calls behave in a world `W` that has a clock. -/
structure Env (ρ φ : ι → Type) (W : Type) where
  now : W → Nat
  setNow : Nat → W → W
  today : W → Instant
  /-- Makes a call. -/
  start : Option Nat → (i : ι) → W → φ i × W
  /-- The answer to a call under way, if it is there by now, or else what it is like now. -/
  poll : (i : ι) → φ i → W → (φ i ⊕ Outcome (ρ i)) × W
  /-- The next time at which a call under way may have an answer. -/
  wake : (i : ι) → φ i → Option Nat

namespace Prog

/-- Runs until blocked. -/
def advance (h : Env ρ φ W) : Prog ρ φ α → W → Prog ρ φ α × W
  | done a, w => (done a, w)
  | call t i k, w =>
    let (c, w) := h.start t i w
    match h.poll i c w with
    | (.inr r, w) => advance h (k r) w
    | (.inl c, w) => (await i c k, w)
  | await i c k, w =>
    match h.poll i c w with
    | (.inr r, w) => advance h (k r) w
    | (.inl c, w) => (await i c k, w)
  | sleep ms p, w => if ms = 0 then advance h p w else (sleepUntil (waitEnd (h.now w) ms) p, w)
  | sleepUntil t p, w => if t ≤ h.now w then advance h p w else (sleepUntil t p, w)
  | clock k, w => advance h (k (h.now w)) w
  | wallClock k, w => advance h (k (h.today w)) w

/-- When a blocked program may go on. -/
def wake (h : Env ρ φ W) : Prog ρ φ α → Option Nat
  | await i c _ => h.wake i c
  | sleepUntil t _ => some t
  | _ => none

/-- Not ended, and not blocked now. -/
def isReady (h : Env ρ φ W) (w : W) : Prog ρ φ α → Bool
  | done _ => false
  | await i c _ => (h.wake i c).any (· ≤ h.now w)
  | sleepUntil t _ => t ≤ h.now w
  | _ => true

def result? : Prog ρ φ α → Option α
  | done a => some a
  | _ => none

end Prog

/-- Passes the time until a call under way is answered. It wakes at most twice: when the call is to
act, and when its time is up. -/
def Env.finish (h : Env ρ φ W) (i : ι) (c : φ i) (w : W) : Option (Outcome (ρ i) × W) :=
  let rec go : Nat → φ i → W → Option (Outcome (ρ i) × W)
    | 0, _, _ => none
    | n + 1, c, w =>
      match h.poll i c w with
      | (.inr r, w) => some (r, w)
      | (.inl c, w) =>
        match h.wake i c with
        | none => none
        | some t => go n c (h.setNow t w)
  go 3 c w

namespace Prog

/-- Runs to the end when nothing else goes on; `none` if a call is never answered. -/
def complete (h : Env ρ φ W) : Prog ρ φ α → W → Option (α × W)
  | done a, w => some (a, w)
  | call t i k, w =>
    let (c, w) := h.start t i w
    match h.finish i c w with
    | none => none
    | some (r, w) => complete h (k r) w
  | await i c k, w =>
    match h.finish i c w with
    | none => none
    | some (r, w) => complete h (k r) w
  | sleep ms p, w => complete h p (h.setNow (waitEnd (h.now w) ms) w)
  | sleepUntil t p, w => complete h p (h.setNow (max t (h.now w)) w)
  | clock k, w => complete h (k (h.now w)) w
  | wallClock k, w => complete h (k (h.today w)) w

end Prog

end Keyspace
