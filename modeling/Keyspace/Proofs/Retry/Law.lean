import Keyspace.Retry.Script
import Mathlib.Algebra.BigOperators.Group.Finset.Basic

/-!
# The law of retries

What a policy makes of attempts, whatever each of them does: how many are made, which outcome stands and how much
time goes by (`retry_law`). The induction is on the retries that are left, over any environment in which the attempts
go as a sequence says (`Plays.complete_runWith`).
-/

namespace Keyspace

/-- A call that is answered at one time, and whose own time is up at another. -/
theorem Env.finish_of_timed {ι W : Type} {ρ φ : ι → Type} {h : Env ρ φ W} {i : ι} {c : φ i} {w : W}
    (o : Outcome (ρ i)) (latency timeout : Nat) (hnow : h.setNow (h.now w) w = w)
    (hp : ∀ t, h.poll i c (h.setNow t w) =
      (if h.now w + latency ≤ t then .inr o
        else if h.now w + timeout ≤ t then .inr (.error (.requestTimeout timeout)) else .inl c, h.setNow t w))
    (hw : h.wake i c = some (min (h.now w + latency) (h.now w + timeout))) :
    h.finish i c w = some (if latency ≤ timeout then o else .error (.requestTimeout timeout),
      h.setNow (h.now w + min latency timeout) w) := by
  have hlast : h.poll i c (h.setNow (h.now w + min latency timeout) w) =
      (.inr (if latency ≤ timeout then o else .error (.requestTimeout timeout)),
        h.setNow (h.now w + min latency timeout) w) := by
    rw [hp]
    by_cases hle : latency ≤ timeout
    · rw [if_pos hle, if_pos (by omega)]
    · rw [if_neg hle, if_neg (by omega), if_pos (by omega)]
  by_cases hzero : min latency timeout = 0
  · -- It is answered, or out of time, at once.
    rw [hzero, Nat.add_zero, hnow] at hlast ⊢
    simp only [finish, finish.go, hlast]
  · have hfirst : h.poll i c w = (.inl c, w) := by
      have := hp (h.now w)
      rwa [hnow, if_neg (by omega), if_neg (by omega)] at this
    rw [← Nat.add_min_add_left] at hlast ⊢
    simp only [finish, finish.go, hfirst, hw, hlast]

namespace Retry

variable {α : Type}

/-- The outcome of an attempt that has so much time. -/
def Attempt.within (a : Attempt α) (timeout : Nat) : Outcome α :=
  if a.latency ≤ timeout then a.outcome else .error (.requestTimeout timeout)

/-- Worth another try. -/
def Transient (o : Outcome α) : Prop := ∃ e : Failure, o = .error e ∧ e.isTransient = true

theorem transient_error {e : Failure} : Transient (.error e : Outcome α) ↔ e.isTransient = true :=
  ⟨fun ⟨_, he, ht⟩ => Except.error.inj he ▸ ht, fun h => ⟨e, rfl, h⟩⟩

/-! ## Spending a budget -/

theorem spend_eq_some_iff {n m : Nat} {e : Failure} : spend n e = some m ↔ n = m + 1 ∧ e.isTransient = true := by
  unfold spend
  cases n with
  | zero => simp
  | succ n => by_cases he : e.isTransient <;> simp [he]

/-- Of the retries one is spent whenever there is another attempt. -/
theorem Policy.runWith_eq {ι : Type} {ρ φ : ι → Type} (p : Policy) (i : ι) (n : Nat) :
    (p.runWith i n : Prog ρ φ _) = .call (some p.timeout) i fun
      | .ok a => .done (.ok a)
      | .error e =>
        match spend n e with
        | some m => .sleep p.interval (p.runWith i m)
        | none => .done (.error e) := by
  cases n with
  | zero =>
    rw [runWith, attempt]
    congr 1
    funext o
    cases o <;> rfl
  | succ n =>
    rw [runWith]
    congr 1
    funext o
    cases o with
    | ok a => rfl
    | error e => by_cases he : e.isTransient <;> simp [spend, he]

/-! ## Attempts in any environment -/

/-- Attempts go as `f` says, `made n` being what holds after `n` of them. -/
structure Plays {ι W : Type} {ρ φ : ι → Type} (h : Env ρ φ W) (i : ι) (f : Nat → Attempt (ρ i))
    (made : Nat → W → Prop) : Prop where
  attempt : ∀ {n w} t, made n w → ∃ v,
    h.finish i (h.start (some t) i w).1 (h.start (some t) i w).2 = some ((f n).within t, v) ∧
      made (n + 1) v ∧ h.now v = h.now w + min (f n).latency t
  wait : ∀ {n w} t, made n w → made n (h.setNow t w) ∧ h.now (h.setNow t w) = t

/-- The attempt at which it ends that there are retries. -/
structure Ends (f : Nat → Outcome α) (retries last : Nat) : Prop where
  le : last ≤ retries
  before : ∀ k < last, Transient (f k)
  final : last < retries → ¬ Transient (f last)

theorem Ends.succ {f : Nat → Outcome α} {retries last : Nat} (h0 : Transient (f 0))
    (h : Ends (fun k => f (k + 1)) retries last) : Ends f (retries + 1) (last + 1) where
  le := Nat.succ_le_succ h.le
  before k hk := by
    cases k with
    | zero => exact h0
    | succ k => exact h.before k (Nat.lt_of_succ_lt_succ hk)
  final hlt := h.final (Nat.lt_of_succ_lt_succ hlt)

section
variable {ι W : Type} {ρ φ : ι → Type} {h : Env ρ φ W} {i : ι}

theorem Plays.succ {f : Nat → Attempt (ρ i)} {made : Nat → W → Prop} (hf : Plays h i f made) :
    Plays h i (fun k => f (k + 1)) fun k => made (k + 1) where
  attempt t hw := hf.attempt t hw
  wait t hw := hf.wait t hw

theorem Plays.complete_runWith (p : Policy) (n : Nat) : ∀ {f : Nat → Attempt (ρ i)} {made : Nat → W → Prop} {w : W},
    Plays h i f made → made 0 w → ∃ last v, Ends (fun k => (f k).within p.timeout) n last ∧
      (p.runWith i n).complete h w = some ((f last).within p.timeout, v) ∧ made (last + 1) v ∧
      h.now v = h.now w + (∑ k ∈ Finset.range (last + 1), min (f k).latency p.timeout
        + last * min p.interval longestWait) := by
  induction n with
  | zero =>
    intro f made w hf hw
    obtain ⟨v, hv, hmade, hnow⟩ := hf.attempt p.timeout hw
    refine ⟨0, v, ⟨Nat.le_refl 0, nofun, nofun⟩, ?_, hmade, by simpa using hnow⟩
    simp only [Policy.runWith, Policy.attempt, Prog.complete, hv]
  | succ n ih =>
    intro f made w hf hw
    obtain ⟨v, hv, hmade, hnow⟩ := hf.attempt p.timeout hw
    have hstop : ¬ Transient ((f 0).within p.timeout) →
        (p.runWith i (n + 1)).complete h w = some ((f 0).within p.timeout, v) := by
      intro hn
      rw [Policy.runWith_eq]
      simp only [Prog.complete, hv]
      cases ho : (f 0).within p.timeout with
      | ok a => rfl
      | error e =>
        rw [ho, transient_error] at hn
        have hspend : spend (n + 1) e = none := by simp [spend, hn]
        simp only [hspend, Prog.complete]
    by_cases ht : Transient ((f 0).within p.timeout)
    · obtain ⟨e, he, htransient⟩ := ht
      obtain ⟨hwait, hclock⟩ := hf.wait (waitEnd (h.now v) p.interval) hmade
      obtain ⟨last, u, hends, hu, hmade', hnow'⟩ := ih hf.succ hwait
      refine ⟨last + 1, u, hends.succ ⟨e, he, htransient⟩, ?_, hmade', ?_⟩
      · rw [Policy.runWith_eq]
        have hspend : spend (n + 1) e = some n := spend_eq_some_iff.2 ⟨rfl, htransient⟩
        simp only [Prog.complete, hv, he, hspend]
        exact hu
      · rw [hnow', hclock, waitEnd, hnow, Finset.sum_range_succ' _ (last + 1), Nat.add_mul]
        omega
    · exact ⟨0, v, ⟨Nat.zero_le _, nofun, fun _ => ht⟩, hstop ht, hmade, by simpa using hnow⟩

end

/-! ## Trials -/

/-- A world in which nothing but attempts goes on. -/
structure Trial where
  made : Nat
  time : Nat

namespace Trial

def start : Trial := ⟨0, 0⟩

/-- The attempts go as a sequence says. -/
def env (f : Nat → Attempt α) : Env (fun _ : Unit => α) (fun _ => Attempt.Begun α) Trial where
  now s := s.time
  setNow t s := { s with time := t }
  today _ := ⟨0, 0⟩
  start timeout _ s :=
    (⟨s.time + (f s.made).latency, (f s.made).outcome, timeout.map fun t => (s.time + t, t)⟩,
      { s with made := s.made + 1 })
  poll _ b s :=
    (if b.due ≤ s.time then .inr b.outcome
      else match b.deadline with
      | some (t, ms) => if t ≤ s.time then .inr (.error (.requestTimeout ms)) else .inl b
      | none => .inl b, s)
  wake _ b := some (b.deadline.elim b.due fun d => min b.due d.1)

theorem plays (f : Nat → Attempt α) : Plays (env f) () f fun n s => s.made = n where
  attempt {n w} t hw := by
    subst hw
    refine ⟨⟨w.made + 1, w.time + min (f w.made).latency t⟩, ?_, rfl, rfl⟩
    have hnow : (env f).setNow ((env f).now ((env f).start (some t) () w).2) ((env f).start (some t) () w).2 =
        ((env f).start (some t) () w).2 := rfl
    exact Env.finish_of_timed _ _ t hnow (fun _ => rfl) rfl
  wait t hw := ⟨hw, rfl⟩

end Trial

/-- A policy goes on until an attempt succeeds or fails for good, or the retries are spent. -/
theorem retry_law (p : Policy) (f : Nat → Attempt α) :
    ∃ last,
      (∀ n, ¬ Transient ((f n).within p.timeout) → (∀ k < n, Transient ((f k).within p.timeout)) →
        last = min n p.retries) ∧
      ((∀ n, Transient ((f n).within p.timeout)) → last = p.retries) ∧
      (p.run ()).run.complete (Trial.env f) .start = some ((f last).within p.timeout,
        ⟨last + 1, ∑ k ∈ Finset.range (last + 1), min (f k).latency p.timeout + last * min p.interval longestWait⟩) ∧
      (∀ k < last, ∃ e, (f k).within p.timeout = .error e ∧ (∀ ms, e ≠ .requestTimeout ms) ∧
        k < p.retries ∧ spend (p.retries - k) e = some (p.retries - (k + 1))) ∧
      ∀ e, (f last).within p.timeout = .error e → spend (p.retries - last) e = none := by
  obtain ⟨last, ⟨made, time⟩, hends, hrun, rfl, hnow⟩ :=
    Plays.complete_runWith p p.retries (Trial.plays f) (w := .start) rfl
  have hle := hends.le
  have htime : time = ∑ k ∈ Finset.range (last + 1), min (f k).latency p.timeout + last * min p.interval longestWait :=
    hnow.trans (Nat.zero_add _)
  refine ⟨last, fun n hn hbefore => ?_, fun hall => ?_, htime ▸ hrun, fun k hk => ?_, fun e he => ?_⟩
  · have h1 : last ≤ n := Nat.le_of_not_lt fun h => hn (hends.before n h)
    rcases Nat.lt_or_ge last p.retries with hlt | hge
    · have h2 : n ≤ last := Nat.le_of_not_lt fun h => hends.final hlt (hbefore last h)
      omega
    · omega
  · exact Nat.le_antisymm hle (Nat.le_of_not_lt fun hlt => hends.final hlt (hall last))
  · obtain ⟨e, he, ht⟩ := hends.before k hk
    refine ⟨e, he, ?_, by omega, spend_eq_some_iff.2 ⟨by omega, ht⟩⟩
    rintro ms rfl
    cases ht
  · cases hspend : spend (p.retries - last) e with
    | none => rfl
    | some m =>
      obtain ⟨hm, ht⟩ := spend_eq_some_iff.1 hspend
      exact absurd ⟨e, he, ht⟩ (hends.final (by omega))

/-- An answer at the very end of the time counts, and one that comes later is not waited for. -/
theorem retry_law_slow :
    let p : Policy := ⟨5, 7, 10⟩
    let f : Nat → Attempt Nat := fun n =>
      if n = 0 then ⟨3, .error (.unavailable "")⟩ else if n = 1 then ⟨10, .error .proposalDropped⟩ else ⟨11, .ok n⟩
    ¬ Transient ((f 2).within p.timeout) ∧ (∀ k < 2, Transient ((f k).within p.timeout)) ∧
      (p.run ()).run.complete (Trial.env f) .start = some (.error (.requestTimeout 10), ⟨3, 37⟩) := by
  intro p f
  have hn : ¬ Transient ((f 2).within p.timeout) := nofun ∘ transient_error.1
  have hbefore : ∀ k < 2, Transient ((f k).within p.timeout) := by
    intro k hk
    obtain rfl | rfl : k = 0 ∨ k = 1 := by omega
    · exact ⟨_, rfl, rfl⟩
    · exact ⟨_, rfl, rfl⟩
  obtain ⟨last, hlast, -, hrun, -⟩ := retry_law p f
  cases hlast 2 hn hbefore
  exact ⟨hn, hbefore, hrun⟩

/-- The interval of a policy is as long as it likes, but no wait is. -/
theorem long_interval_shortened :
    let p : Policy := ⟨1, 1000000000000, 50⟩
    let f : Nat → Attempt Nat := fun n => if n = 0 then ⟨0, .error (.unavailable "leader lost")⟩ else ⟨0, .ok 1⟩
    ¬ Transient ((f 1).within p.timeout) ∧ (∀ k < 1, Transient ((f k).within p.timeout)) ∧
      ∃ v, (p.run ()).run.complete (Trial.env f) .start = some (.ok 1, v) ∧ v.made = min 1 p.retries + 1 ∧
        v.time = 946080000000 ∧
        v.time ≠ ∑ k ∈ Finset.range v.made, min (f k).latency p.timeout + p.interval * (v.made - 1) := by
  intro p f
  refine ⟨nofun, fun k hk => ?_, ⟨2, 946080000000⟩, by cbv, rfl, rfl, ?_⟩
  · cases Nat.lt_one_iff.1 hk
    exact ⟨_, rfl, rfl⟩
  · simp [p, f, Finset.sum_range_succ]

end Retry

end Keyspace
