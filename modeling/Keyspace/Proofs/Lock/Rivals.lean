import Keyspace.Proofs.Lock.Stake

/-!
# Rivals

Any number of clients take and release locks beside each other. Time passes as it likes between any two of their steps,
and no fault is injected. What is at stake for one is out of reach of the others (`Rivals.Keeps`), so the taking of a
lock fails at its deadline, or for a lease of its own that ran out (`Rivals.contention_unblamed`).
-/

namespace Keyspace

variable {φ : Call → Type}

/-! ## Errands -/

inductive Errand (φ : Call → Type)
  | idle
  /-- The request has its defaults. -/
  | acquire (r : LockRequest) (p : Prog Call.Answer φ (Outcome Lock))
  | release (p : Prog Call.Answer φ (Outcome Unit))

namespace Errand

inductive Begins : Errand φ → Prop
  | acquire (c : Client) (r : LockRequest) : Begins (acquire (r.withDefaults c.config.lock) (c.acquireLock r).run)
  | release (c : Client) (key : String) : Begins (release (c.releaseLock key).run)
  | leave : Begins idle

def turn (t : Turn) (w : Arena) : Errand φ → Errand φ × Arena
  | idle => (idle, w)
  | acquire r p =>
    let (p, w) := p.step Arena.serve t w
    (acquire r p, w)
  | release p =>
    let (p, w) := p.step Arena.serve t w
    (release p, w)

/-- The failure in which the taking of a lock has ended. -/
def failed? : Errand φ → Option (LockRequest × Failure)
  | acquire r (.done (.error f)) => some (r, f)
  | _ => none

def Ensured (w : Arena) : Errand φ → Prop
  | idle => True
  | acquire r p => p.Ensures Arena.rivaling (Arena.Tells r) w
  | release p => p.Ensures Arena.rivaling (fun _ _ => True) w

variable {j : Errand φ} {w w' : Arena}

theorem Begins.ensured (hj : j.Begins) (h : w.backend.Fit) : j.Ensured w := by
  cases hj with
  | acquire c r => exact Arena.ensures_acquireLock c r h
  | release c key => exact Arena.ensures_releaseLock c key h
  | leave => trivial

theorem Ensured.spared (hj : j.Ensured w) (ho : Arena.Spared w w') : j.Ensured w' := by
  cases j with
  | idle => trivial
  | acquire r p | release p => exact Prog.Ensures.others hj ho

theorem Ensured.turn (hj : j.Ensured w) (h : w.backend.Fit) (t : Turn) :
    (j.turn t w).1.Ensured (j.turn t w).2 ∧ Arena.Follows w (j.turn t w).2 := by
  cases j with
  | idle => exact ⟨trivial, .refl h⟩
  | acquire r p | release p =>
    exact ⟨Prog.Ensures.step hj t fun _ _ => ⟨rfl, rfl⟩,
      Prog.Ensures.step_keeps hj t (.refl h) fun _ hm => hm.follows h⟩

theorem Ensured.blames (hj : j.Ensured w) {r : LockRequest} {f : Failure} (hf : j.failed? = some (r, f)) :
    w.Blames r f := by
  unfold failed? at hf
  split at hf
  · cases hf
    exact hj w (.refl w)
  · cases hf

end Errand

/-! ## Rivals -/

structure Rivals (φ : Call → Type) where
  backend : Backend
  now : Nat
  errands : Nat → Errand φ
  /-- The visits of each errand, the oldest first. -/
  visits : Nat → List Visit

namespace Rivals

variable {x y : Rivals φ} {i j : Nat}

def arena (x : Rivals φ) (i : Nat) : Arena := ⟨x.backend, x.now, x.visits i⟩

/-- Another errand, and what it leaves. -/
def set (x : Rivals φ) (i : Nat) (j : Errand φ) (w : Arena) : Rivals φ :=
  ⟨w.backend, w.now, fun n => if n = i then j else x.errands n, fun n => if n = i then w.visits else x.visits n⟩

def begin (x : Rivals φ) (i : Nat) (j : Errand φ) : Rivals φ := x.set i j ⟨x.backend, x.now, []⟩

def turn (x : Rivals φ) (i : Nat) (today : Instant) : Rivals φ :=
  let (j, w) := (x.errands i).turn ⟨x.now, today, .answered⟩ (x.arena i)
  x.set i j w

inductive Step : Rivals φ → Rivals φ → Prop
  | wait (x : Rivals φ) (now : Nat) (h : x.now ≤ now) : Step x { x with now }
  | begin (x : Rivals φ) (i : Nat) (j : Errand φ) (h : j.Begins) : Step x (x.begin i j)
  | turn (x : Rivals φ) (i : Nat) (today : Instant) : Step x (x.turn i today)

inductive Reached : Rivals φ → Prop
  | start (b : Backend) (now : Nat) (h : b.Fit) : Reached ⟨b, now, fun _ => .idle, fun _ => []⟩
  | step {x y : Rivals φ} (h : Reached x) (hs : Step x y) : Reached y

structure Keeps (x : Rivals φ) : Prop where
  fit : x.backend.Fit
  /-- What is within reach was granted. -/
  known : ∀ i lease, (x.arena i).reach? = some lease → lease < x.backend.store.nextLease
  /-- What is at stake is bound to no key. -/
  unbound : ∀ i lease, (x.arena i).stake? = some lease →
    ∀ k y, x.backend.store.current k = some y → y.lease ≠ lease
  /-- What is at stake for one is out of reach of the others. -/
  apart : ∀ i j lease, i ≠ j → (x.arena i).stake? = some lease → (x.arena j).reach? ≠ some lease
  ensured : ∀ i, (x.errands i).Ensured (x.arena i)

theorem Keeps.wait (h : x.Keeps) {now : Nat} (hn : x.now ≤ now) : Keeps { x with now } :=
  ⟨h.fit, h.known, h.unbound, h.apart, fun i => (h.ensured i).spared ⟨rfl, hn, id, fun _ _ _ hd => .inl hd⟩⟩

theorem arena_set_self (x : Rivals φ) (i : Nat) (j : Errand φ) (w : Arena) : (x.set i j w).arena i = w := by
  simp [arena, set]

theorem arena_set_of_ne (x : Rivals φ) (j : Errand φ) (w : Arena) {n : Nat} (h : n ≠ i) :
    (x.set i j w).arena n = { w with visits := x.visits n } := by
  simp [arena, set, h]

theorem arena_set_cases (P : Arena → Prop) {j : Errand φ} {w : Arena} {n : Nat} (h : P ((x.set i j w).arena n)) :
    n = i ∧ P w ∨ n ≠ i ∧ P { w with visits := x.visits n } := by
  by_cases hn : n = i
  · subst hn
    exact .inl ⟨rfl, arena_set_self x n j w ▸ h⟩
  · exact .inr ⟨hn, arena_set_of_ne x j w hn ▸ h⟩

theorem Keeps.set (h : x.Keeps) {j : Errand φ} {w : Arena} (hf : Arena.Follows (x.arena i) w) (hj : j.Ensured w) :
    (x.set i j w).Keeps := by
  have hstake : ∀ {n lease}, ((x.set i j w).arena n).stake? = some lease →
      n = i ∧ w.stake? = some lease ∨ n ≠ i ∧ (x.arena n).stake? = some lease :=
    fun {_ lease} => arena_set_cases (·.stake? = some lease)
  have hreach : ∀ {n lease}, ((x.set i j w).arena n).reach? = some lease →
      n = i ∧ w.reach? = some lease ∨ n ≠ i ∧ (x.arena n).reach? = some lease :=
    fun {_ lease} => arena_set_cases (·.reach? = some lease)
  refine ⟨hf.fit, fun n lease hr => ?_, fun n lease hs k y hy => ?_, fun n m lease hne hs hr => ?_, fun n => ?_⟩
  · rcases hreach hr with ⟨rfl, hr'⟩ | ⟨-, hr'⟩
    · rcases hf.reach lease hr' with hold | ⟨-, hnew⟩ | ⟨k, y, hy, rfl⟩
      · exact Int.lt_of_lt_of_le (h.known n lease hold) hf.nextLease
      · exact hnew
      · exact Int.lt_of_lt_of_le (Store.lease_lt h.fit.reached.sound h.fit.reached.bindsAll hy) hf.nextLease
    · exact Int.lt_of_lt_of_le (h.known n lease hr') hf.nextLease
  · rcases hstake hs with ⟨rfl, hs'⟩ | ⟨hn, hs'⟩ <;> rcases hf.current k y hy with hold | ⟨htook, hnone⟩
    · rcases hf.stake lease hs' with hs' | hnew
      · exact h.unbound n lease hs' k y hold
      · have hlt := Store.lease_lt h.fit.reached.sound h.fit.reached.bindsAll hold
        exact fun he => absurd (he ▸ hlt) (Int.not_lt.2 hnew)
    · cases hnone.symm.trans hs'
    · exact h.unbound n lease hs' k y hold
    · exact fun he => h.apart n i lease hn hs' (he ▸ Arena.reach?_of_stake? htook)
  · rcases hstake hs with ⟨rfl, hs'⟩ | ⟨hn, hs'⟩ <;> rcases hreach hr with ⟨rfl, hr'⟩ | ⟨hm, hr'⟩
    · exact hne rfl
    · rcases hf.stake lease hs' with hs' | hnew
      · exact h.apart n m lease hne hs' hr'
      · exact absurd (h.known m lease hr') (Int.not_lt.2 hnew)
    · rcases hf.reach lease hr' with hr' | ⟨hnew, -⟩ | ⟨k, y, hy, he⟩
      · exact h.apart n m lease hne hs' hr'
      · exact absurd (h.known n lease (Arena.reach?_of_stake? hs')) (Int.not_lt.2 hnew)
      · exact h.unbound n lease hs' k y hy he
    · exact h.apart n m lease hne hs' hr'
  · by_cases hn : n = i
    · subst hn
      rw [arena_set_self]
      show Errand.Ensured w (if n = n then j else x.errands n)
      rwa [if_pos rfl]
    · rw [arena_set_of_ne x j w hn]
      show Errand.Ensured _ (if n = i then j else x.errands n)
      rw [if_neg hn]
      refine (h.ensured n).spared ⟨rfl, Nat.le_of_eq hf.now.symm, fun _ => hf.fit, fun lease due hs hd => ?_⟩
      exact hf.spares lease due (h.apart n i lease hn hs) hd

theorem Keeps.begin (h : x.Keeps) (i : Nat) {j : Errand φ} (hj : j.Begins) : (x.begin i j).Keeps :=
  h.set ⟨h.fit, rfl, Int.le_refl _, fun _ _ hy => .inl hy, fun _ _ _ hd => .inl hd, nofun, nofun⟩ (hj.ensured h.fit)

theorem Keeps.turn (h : x.Keeps) (i : Nat) (today : Instant) : (x.turn i today).Keeps := by
  obtain ⟨hj, hf⟩ := (h.ensured i).turn h.fit ⟨x.now, today, .answered⟩
  exact h.set hf hj

theorem Keeps.step (h : x.Keeps) (hs : Step x y) : y.Keeps := by
  cases hs with
  | wait now hn => exact h.wait hn
  | begin i j hj => exact h.begin i hj
  | turn i today => exact h.turn i today

theorem Reached.keeps (h : x.Reached) : x.Keeps := by
  induction h with
  | start b now h => exact ⟨h, nofun, nofun, nofun, fun _ => trivial⟩
  | step _ hs ih => exact ih.step hs

/-- Contention is not to blame where the taking of a lock fails. -/
theorem contention_unblamed (h : x.Reached) {r : LockRequest} {f : Failure}
    (hf : (x.errands i).failed? = some (r, f)) : (x.arena i).Blames r f :=
  (h.keeps.ensured i).blames hf

theorem Reached.turns (i : Nat) (days : List Instant) : ∀ {x : Rivals φ}, x.Reached →
    (days.foldl (fun x today => x.turn i today) x).Reached := by
  induction days with
  | nil => exact fun h => h
  | cons today days ih => exact fun h => ih (h.step (.turn _ i today))

/-- A client is granted a lease of one second and loses the race for the lock. By the time it gives the lease back, that
is over. -/
def outlived : Rivals fun _ => Unit :=
  let c : Client := .ofConfig Config.standard
  let take (ttl : Int) : Errand fun _ => Unit :=
    .acquire ⟨"k", ttl, 3000, 500, []⟩ (c.acquireLock ⟨"k", ttl, 3000, 500, []⟩).run
  let turns (i n : Nat) (x : Rivals fun _ => Unit) : Rivals fun _ => Unit :=
    (List.replicate n ⟨0, 0⟩).foldl (fun x today => x.turn i today) x
  let granted := turns 0 5 (begin ⟨.ofMembers ["a"], 0, fun _ => .idle, fun _ => []⟩ 0 (take 1))
  let taken := turns 1 6 (granted.begin 1 (take 600))
  let lost := turns 0 1 { taken with now := 10 }
  turns 0 1 { lost with now := 1510 }

theorem outlived_reached : outlived.Reached := by
  have hfit : (Backend.ofMembers ["a"]).Fit := ⟨.ofMembers ["a"], rfl, nofun⟩
  have hbegun := (Reached.start (φ := fun _ => Unit) _ 0 hfit).step (.begin _ 0 _ (.acquire (.ofConfig Config.standard)
    ⟨"k", 1, 3000, 500, []⟩))
  have htaken := ((hbegun.turns 0 (.replicate 5 ⟨0, 0⟩)).step (.begin _ 1 _ (.acquire (.ofConfig Config.standard)
    ⟨"k", 600, 3000, 500, []⟩))).turns 1 (.replicate 6 ⟨0, 0⟩)
  have hlost := (htaken.step (.wait _ 10 (by decide +kernel))).turns 0 [⟨0, 0⟩]
  exact (hlost.step (.wait _ 1510 (by decide +kernel))).turns 0 [⟨0, 0⟩]

theorem contention_unblamed_outlived :
    outlived.Reached ∧ (outlived.errands 0).failed? = some (⟨"k", 1, 3000, 500, []⟩, .leaseNotFound 1) ∧
      (outlived.arena 0).Blames ⟨"k", 1, 3000, 500, []⟩ (.leaseNotFound 1) := by
  have hf : (outlived.errands 0).failed? = some (⟨"k", 1, 3000, 500, []⟩, .leaseNotFound 1) := by decide +kernel
  exact ⟨outlived_reached, hf, contention_unblamed outlived_reached hf⟩

/-- The taking of a lock can fail before its deadline, though no fault is injected and its leases have time. -/
theorem race_lost_for_good : ¬ ∀ x : Rivals fun _ => Unit, x.Reached → ∀ i r f,
    (x.errands i).failed? = some (r, f) → 0 < r.ttl → f = .lockDeadlineExceeded r.key := by
  intro h
  have hf : (outlived.errands 0).failed? = some (⟨"k", 1, 3000, 500, []⟩, .leaseNotFound 1) := by decide +kernel
  cases h outlived outlived_reached 0 _ _ hf (by decide)

end Rivals

end Keyspace
