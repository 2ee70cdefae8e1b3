import Keyspace.Call
import Keyspace.Prog.Lemmas

/-!
# Courses

A course of a program is what it hears, call by call, while the time goes on: any call may be answered in any way and
after any time, and no wait is shorter than it says. A course of a sequence is one of the first part, and once that has
ended one of the second (`Course.bind_cases`).
-/

namespace Keyspace

structure Reply where
  call : Call
  outcome : Outcome call.Answer

variable {φ : Call → Type} {α β : Type}

/-- From a program at a time to what is left of it later, with the replies that came in between. -/
inductive Course : Prog Call.Answer φ α → Nat → List Reply → Prog Call.Answer φ α → Nat → Prop
  | here (p : Prog Call.Answer φ α) (now : Nat) : Course p now [] p now
  | call {o : Option Nat} {i : Call} {k : Outcome i.Answer → Prog Call.Answer φ α} {now t stop : Nat}
    {r : Outcome i.Answer} {hs : List Reply} {q : Prog Call.Answer φ α} (ht : now ≤ t) (h : Course (k r) t hs q stop) :
    Course (.call o i k) now (⟨i, r⟩ :: hs) q stop
  | await {i : Call} {c : φ i} {k : Outcome i.Answer → Prog Call.Answer φ α} {now t stop : Nat}
    {r : Outcome i.Answer} {hs : List Reply} {q : Prog Call.Answer φ α} (ht : now ≤ t) (h : Course (k r) t hs q stop) :
    Course (.await i c k) now (⟨i, r⟩ :: hs) q stop
  | sleep {ms : Nat} {p q : Prog Call.Answer φ α} {now t stop : Nat} {hs : List Reply} (ht : waitEnd now ms ≤ t)
    (h : Course p t hs q stop) : Course (.sleep ms p) now hs q stop
  | sleepUntil {time : Nat} {p q : Prog Call.Answer φ α} {now t stop : Nat} {hs : List Reply} (hn : now ≤ t)
    (ht : time ≤ t) (h : Course p t hs q stop) : Course (.sleepUntil time p) now hs q stop
  | clock {k : Nat → Prog Call.Answer φ α} {q : Prog Call.Answer φ α} {now stop : Nat} {hs : List Reply}
    (h : Course (k now) now hs q stop) : Course (.clock k) now hs q stop
  | wallClock {k : Instant → Prog Call.Answer φ α} {q : Prog Call.Answer φ α} {now stop : Nat} {hs : List Reply}
    (today : Instant) (h : Course (k today) now hs q stop) : Course (.wallClock k) now hs q stop

namespace Course

variable {p q : Prog Call.Answer φ α} {now stop : Nat} {hs : List Reply}

theorem of_done {a : α} (h : Course (.done a) now hs q stop) : hs = [] ∧ q = .done a ∧ stop = now := by
  cases h
  exact ⟨rfl, rfl, rfl⟩

/-- The first part has not ended, or the second part goes on from where it did. -/
theorem bind_cases {f : α → Prog Call.Answer φ β} {q : Prog Call.Answer φ β} (h : Course (p.bind f) now hs q stop) :
    (∃ p', Course p now hs p' stop ∧ p'.result? = none ∧ q.result? = none) ∨
      ∃ a t us vs, hs = us ++ vs ∧ Course p now us (.done a) t ∧ Course (f a) t vs q stop := by
  induction p generalizing now hs with
  | done a => exact .inr ⟨a, now, [], hs, rfl, .here _ _, h⟩
  | call o i k ih =>
    cases h with
    | here => exact .inl ⟨_, .here _ _, rfl, rfl⟩
    | call ht h =>
      rcases ih _ h with ⟨p', hp, hn⟩ | ⟨a, t, us, vs, rfl, hp, hf⟩
      · exact .inl ⟨p', .call ht hp, hn⟩
      · exact .inr ⟨a, t, _ :: us, vs, rfl, .call ht hp, hf⟩
  | await i c k ih =>
    cases h with
    | here => exact .inl ⟨_, .here _ _, rfl, rfl⟩
    | await ht h =>
      rcases ih _ h with ⟨p', hp, hn⟩ | ⟨a, t, us, vs, rfl, hp, hf⟩
      · exact .inl ⟨p', .await ht hp, hn⟩
      · exact .inr ⟨a, t, _ :: us, vs, rfl, .await ht hp, hf⟩
  | sleep ms p ih =>
    cases h with
    | here => exact .inl ⟨_, .here _ _, rfl, rfl⟩
    | sleep ht h =>
      rcases ih h with ⟨p', hp, hn⟩ | ⟨a, t, us, vs, rfl, hp, hf⟩
      · exact .inl ⟨p', .sleep ht hp, hn⟩
      · exact .inr ⟨a, t, us, vs, rfl, .sleep ht hp, hf⟩
  | sleepUntil u p ih =>
    cases h with
    | here => exact .inl ⟨_, .here _ _, rfl, rfl⟩
    | sleepUntil hle ht h =>
      rcases ih h with ⟨p', hp, hn⟩ | ⟨a, t, us, vs, rfl, hp, hf⟩
      · exact .inl ⟨p', .sleepUntil hle ht hp, hn⟩
      · exact .inr ⟨a, t, us, vs, rfl, .sleepUntil hle ht hp, hf⟩
  | clock k ih =>
    cases h with
    | here => exact .inl ⟨_, .here _ _, rfl, rfl⟩
    | clock h =>
      rcases ih _ h with ⟨p', hp, hn⟩ | ⟨a, t, us, vs, rfl, hp, hf⟩
      · exact .inl ⟨p', .clock hp, hn⟩
      · exact .inr ⟨a, t, us, vs, rfl, .clock hp, hf⟩
  | wallClock k ih =>
    cases h with
    | here => exact .inl ⟨_, .here _ _, rfl, rfl⟩
    | wallClock d h =>
      rcases ih _ h with ⟨p', hp, hn⟩ | ⟨a, t, us, vs, rfl, hp, hf⟩
      · exact .inl ⟨p', .wallClock d hp, hn⟩
      · exact .inr ⟨a, t, us, vs, rfl, .wallClock d hp, hf⟩

end Course

end Keyspace
