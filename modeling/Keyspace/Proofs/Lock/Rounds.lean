import Keyspace.Proofs.Lock.Contention
import Keyspace.Proofs.Run.Course

/-!
# Enough rounds

The taking of a lock has a number of rounds that it is bounded by. A contended round costs a pause, of which there are
only so many before the deadline, and any other round that is not the last one costs a retry. So the deadline passes
first, and the rounds never run out (`Course.rounds_left`).
-/

namespace Keyspace

variable {φ : Call → Type} {α β : Type}

/-! ## Programs that wait for no time -/

namespace Prog

/-- Begun at a time and whatever it hears, the program does not come to wait until another time that it names. -/
def Untimed : Prog Call.Answer φ α → Nat → Prop
  | done _, _ => True
  | call _ _ k, now | await _ _ k, now => ∀ t, now ≤ t → ∀ x, (k x).Untimed t
  | sleep ms p, now => ∀ t, waitEnd now ms ≤ t → p.Untimed t
  | sleepUntil _ _, _ => False
  | clock k, now => (k now).Untimed now
  | wallClock k, now => ∀ today, (k today).Untimed now

variable {p q : Prog Call.Answer φ α} {now stop : Nat} {hs : List Reply}

theorem Untimed.bind {f : α → Prog Call.Answer φ β} (h : p.Untimed now) (hf : ∀ a t, now ≤ t → (f a).Untimed t) :
    (p.bind f).Untimed now := by
  induction p generalizing now with
  | done a => exact hf a now (Nat.le_refl _)
  | call _ i k ih | await i _ k ih =>
    exact fun t ht x => ih x (h t ht x) fun a u hu => hf a u (Nat.le_trans ht hu)
  | sleep ms p ih =>
    exact fun t ht => ih (h t ht) fun a u hu => hf a u (Nat.le_trans (Nat.le_trans (Nat.le_add_right ..) ht) hu)
  | sleepUntil _ p => exact h.elim
  | clock k ih => exact ih now h hf
  | wallClock k ih => exact fun today => ih today (h today) hf

theorem Untimed.course (h : p.Untimed now) (hc : Course p now hs q stop) : q.Untimed stop := by
  induction hc with
  | here => exact h
  | call ht _ ih | await ht _ ih => exact ih (h _ ht _)
  | sleep ht _ ih => exact ih (h _ ht)
  | sleepUntil => exact h.elim
  | clock _ ih => exact ih h
  | wallClock today _ ih => exact ih (h today)

theorem untimed_runWith (policy : Retry.Policy) (i : Call) (n : Nat) : ∀ now,
    (policy.runWith i n : Prog Call.Answer φ (Outcome i.Answer)).Untimed now := by
  induction n with
  | zero => exact fun _ _ _ _ => trivial
  | succ n ih =>
    intro now t _ x
    cases x with
    | ok a => trivial
    | error f =>
      show Untimed (if f.isTransient then _ else _) t
      split
      · exact fun u _ => ih u
      · trivial

end Prog

/-! ## Rounds -/

namespace Client

variable {c : Client} {r : LockRequest}

theorem untimed_writeLock (c : Client) (r : LockRequest) (lease : Int) (now : Nat) :
    (c.writeLock r lease : Prog Call.Answer φ LockRound).Untimed now := by
  intro today t _ x
  have hrevoke : ∀ u, (c.revokeLease lease : Action Call.Answer φ Unit).run.Untimed u :=
    Prog.untimed_runWith c.policy (.leaseRevoke lease) c.policy.retries
  cases x with
  | ok a =>
    show Prog.Untimed (if a.succeeded then _ else _) t
    split
    · trivial
    · refine (hrevoke t).bind fun y _ _ => ?_
      cases y <;> trivial
  | error f =>
    refine (hrevoke t).bind fun y _ _ => ?_
    cases y <;> trivial

theorem untimed_lockRound (c : Client) (r : LockRequest) (now : Nat) :
    (c.lockRound r : Prog Call.Answer φ LockRound).Untimed now := by
  intro t _ x
  cases x with
  | error f => trivial
  | ok a =>
    show Prog.Untimed (if !a.records.isEmpty then _ else _) t
    split
    · trivial
    · intro u _ y
      cases y with
      | error f => trivial
      | ok g => exact c.untimed_writeLock r g.id u

/-- The rounds are as many as the retries that are left and the pauses until the deadline, and one more. -/
theorem untimed_lockRounds {deadline : Nat} (rounds : Nat) : ∀ (pauses : Nat) {retries now : Nat},
    deadline < now + pauses * Arena.pause r → rounds = retries + pauses + 1 →
      (c.lockRounds r deadline rounds retries : Prog Call.Answer φ (Outcome Lock)).Untimed now := by
  induction rounds with
  | zero => exact fun _ _ _ _ hr => absurd hr (by omega)
  | succ rounds ih =>
    intro pauses retries now hd hr
    show Prog.Untimed (if deadline < now then _ else _) now
    by_cases hlate : deadline < now
    · rw [if_pos hlate]
      trivial
    rw [if_neg hlate]
    refine (c.untimed_lockRound r now).bind fun a t ht => ?_
    cases a with
    | taken l | fatal f => trivial
    | contended =>
      -- Before the deadline there is a pause left to wait for.
      cases pauses with
      | zero => omega
      | succ pauses =>
        intro u hu
        have hwait : t + Arena.pause r ≤ u := hu
        rw [Nat.succ_mul] at hd
        exact ih pauses (by omega) (by omega)
    | failed f =>
      simp only
      cases hspend : Retry.spend retries f with
      | none => trivial
      | some left =>
        obtain ⟨hleft, -⟩ := Retry.spend_eq_some_iff.1 hspend
        intro u hu
        have hwait : t ≤ u := Nat.le_trans (Nat.le_add_right ..) hu
        exact ih pauses (by omega) (by omega)

theorem untimed_roundLimit (hi : 0 < r.interval) (now : Nat) :
    (c.lockRounds r (now + r.timeout) (c.roundLimit r) c.policy.retries : Prog Call.Answer φ (Outcome Lock)).Untimed
      now := by
  have hpause : 0 < Arena.pause r := Nat.lt_min.2 ⟨hi, by decide⟩
  have hdiv : r.timeout < r.timeout / Arena.pause r * Arena.pause r + Arena.pause r := Nat.lt_div_mul_add hpause
  have hlimit := Arena.roundLimit_eq (c := c) hpause
  refine c.untimed_lockRounds _ (r.timeout / Arena.pause r + 1) ?_ (by omega)
  rw [Nat.succ_mul]
  omega

end Client

/-- With a pause between contended rounds, no run of taking a lock is left with no rounds before its deadline. -/
theorem Course.rounds_left {c : Client} {r : LockRequest} (hi : 0 < (r.withDefaults c.config.lock).interval)
    {start stop : Nat} {hs : List Reply} {q : Prog Call.Answer φ (Outcome Lock)}
    (h : Course (c.acquireLock r).run start hs q stop) (time : Nat) (rest : Prog Call.Answer φ (Outcome Lock)) :
    q ≠ .sleepUntil time rest := by
  rintro rfl
  have hrounds : (c.acquireLock r : Action Call.Answer φ Lock).run.Untimed start := Client.untimed_roundLimit hi start
  exact hrounds.course h

end Keyspace
