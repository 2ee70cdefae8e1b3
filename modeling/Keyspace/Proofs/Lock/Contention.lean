import Keyspace.Proofs.Lock.Calls
import Keyspace.Proofs.Run.Arena

/-!
# Taking a lock under contention

One program is served at once while others do what they like between any two of its calls, and what it waits for is
nothing but the time. Then attempts at a lock are made at equal distances, until one finds it free or the deadline has
passed (`contention_exact`), as long as the clock can tell the times that are set.
-/

namespace Keyspace

/-- What others do before each call of the program, the first being before call 0. -/
abbrev Plan := Nat → List (Nat × Move)

/-- A lease that the call is granted at `now` ends before `horizon`. -/
def Call.timely (horizon now : Nat) : Call → Bool
  | .leaseGrant ttl => ttl ≤ 0 || now + ttl.toNat * 1000 < horizon
  | _ => true

namespace Arena

/-- The leases that the program was granted. -/
def own (w : Arena) : List Int := w.visits.filterMap Visit.granted?

def spares (w : Arena) : Move → Bool
  | .call (.leaseRevoke lease) => lease ∉ w.own
  | _ => true

/-- What others do before the next call: by then, and without revoking a lease of the program's. -/
def others (plan : Plan) (w : Arena) : List (Nat × Move) :=
  ((plan w.visits.length).filter fun m => w.spares m.2).map fun m => (min m.1 w.now, m.2)

/-- What the next call finds. -/
def met (plan : Plan) (w : Arena) : Arena := { w with backend := w.backend.moves (w.others plan) }

@[simp] theorem now_met (plan : Plan) (w : Arena) : (w.met plan).now = w.now := rfl

@[simp] theorem visits_met (plan : Plan) (w : Arena) : (w.met plan).visits = w.visits := rfl

def env (plan : Plan) (today : Nat → Instant) : Env Call.Answer (fun c => Outcome c.Answer) Arena where
  now w := w.now
  setNow t w := { w with now := t }
  today w := today w.now
  start _ c w := (w.met plan).serve c
  poll _ r w := (.inr r, w)
  wake _ _ := none

/-- The clock tells the times before `horizon`, and a call that sets a later one is never answered. -/
def clocked (horizon : Nat) (plan : Plan) (today : Nat → Instant) :
    Env Call.Answer (fun c => Outcome c.Answer) Arena where
  __ := env plan today
  poll i r w := (if i.timely horizon w.now then .inr r else .inl r, w)

/-! ## Others -/

/-- Others inject no faults. -/
def Unharmed (plan : Plan) : Prop := ∀ n t rule, (t, .fail rule) ∉ plan n

variable {horizon : Nat} {plan : Plan} {today : Nat → Instant} {w : Arena} {lease : Int} {due : Nat}

theorem mem_others {m : Nat × Move} (h : m ∈ w.others plan) :
    m.1 ≤ w.now ∧ w.spares m.2 = true ∧ ∃ t, (t, m.2) ∈ plan w.visits.length := by
  obtain ⟨m', hm, rfl⟩ := List.mem_map.1 h
  obtain ⟨hp, hs⟩ := List.mem_filter.1 hm
  exact ⟨Nat.min_le_right .., hs, m'.1, hp⟩

theorem Fair.met (h : w.Fair) (hp : Unharmed plan) : (w.met plan).Fair := by
  refine ⟨h.reached.moves _, Backend.unfaulted_moves _ h.unfaulted fun m hm rule he => ?_⟩
  obtain ⟨-, -, t, ht⟩ := mem_others hm
  exact hp _ t rule (he ▸ ht)

/-- A lease of the program's that is not due is there for its next call. -/
theorem Fair.deadline?_met (plan : Plan) (h : w.Fair) (hown : lease ∈ w.own) (hn : w.now < due)
    (hd : w.store.deadline? lease = some due) : (w.met plan).store.deadline? lease = some due := by
  refine Backend.deadline?_moves _ h.reached hd fun m hm => ?_
  obtain ⟨hle, hs, -⟩ := mem_others hm
  refine ⟨Nat.lt_of_le_of_lt hle hn, fun he => ?_⟩
  rw [he] at hs
  exact of_decide_eq_true hs hown

theorem own_serve (c : Call) (w : Arena) :
    (w.serve c).2.own = w.own ++ (Visit.granted? ⟨w.now, c, w.store⟩).toList := by
  unfold own serve
  rw [List.filterMap_append]
  cases hg : Visit.granted? ⟨w.now, c, w.store⟩ <;> simp [hg]

/-! ## Attempts -/

/-- The visits of an attempt that finds the lock held, or that something else keeps it from being taken. -/
inductive Loses (r : LockRequest) (t : Nat) : List Visit → Prop
  | held {s : Store} (h : (s.expire t).current (Utf8.encode r.key) ≠ none) :
    Loses r t [⟨t, .range (.single (Utf8.encode r.key)) none, s⟩]
  | raced {s s₁ s₂ s₃ : Store} {l : Lock} (h : (s.expire t).current (Utf8.encode r.key) = none)
    (hl : l.lease = (s₁.expire t).nextLease) (hf : ¬ r.FreeIn (s₂.expire t)) :
    Loses r t [⟨t, .range (.single (Utf8.encode r.key)) none, s⟩, ⟨t, .leaseGrant r.ttl, s₁⟩, ⟨t, .txn (r.txn l), s₂⟩,
      ⟨t, .leaseRevoke l.lease, s₃⟩]

/-- The visits of an attempt that takes the lock. -/
inductive Wins (r : LockRequest) (t : Nat) : List Visit → Lock → Prop
  | took {s s₁ s₂ : Store} {l : Lock} (h : (s.expire t).current (Utf8.encode r.key) = none)
    (hl : l.lease = (s₁.expire t).nextLease) (hf : r.FreeIn (s₂.expire t)) :
    Wins r t [⟨t, .range (.single (Utf8.encode r.key)) none, s⟩, ⟨t, .leaseGrant r.ttl, s₁⟩, ⟨t, .txn (r.txn l), s₂⟩]
      { l with revision := (s₂.expire t).revision + 1 }

section

variable (c : Client) (r : LockRequest)

theorem complete_then {α β : Type} (p : Prog Call.Answer (fun c => Outcome c.Answer) α)
    (f : α → Prog Call.Answer (fun c => Outcome c.Answer) β) (w : Arena) :
    (p >>= f).complete (clocked horizon plan today) w =
      (p.complete (clocked horizon plan today) w).bind fun x => (f x.1).complete (clocked horizon plan today) x.2 :=
  p.complete_bind _ f w

theorem finish_clocked {i : Call} (hi : i.timely horizon w.now = true) (x : Outcome i.Answer) :
    (clocked horizon plan today).finish i x w = some (x, w) := by
  have hpoll : (clocked horizon plan today).poll i x w = (.inr x, w) := by simp only [clocked, hi, if_true]
  simp only [Env.finish, Env.finish.go, hpoll]

theorem complete_timely {α : Type} (o : Option Nat) {i : Call} (hi : i.timely horizon w.now = true)
    (k : Outcome i.Answer → Prog Call.Answer (fun c => Outcome c.Answer) α) :
    (Prog.call o i k).complete (clocked horizon plan today) w =
      (k ((w.met plan).serve i).1).complete (clocked horizon plan today) ((w.met plan).serve i).2 := by
  have hstart : (clocked horizon plan today).start o i w = (w.met plan).serve i := rfl
  simp only [Prog.complete, hstart, finish_clocked (w := ((w.met plan).serve i).2) hi]

theorem complete_attempt {i : Call} (hi : i.timely horizon w.now = true) :
    (c.attempt i).complete (clocked horizon plan today) w = some ((w.met plan).serve i) := complete_timely _ hi _

theorem complete_today : Prog.today.complete (clocked horizon plan today) w = some (today w.now, w) := rfl

theorem complete_revokeLease (h : ((w.met plan).serve (.leaseRevoke lease)).1 = .ok ()) :
    (c.revokeLease lease).run.complete (clocked horizon plan today) w =
      some (.ok (), ((w.met plan).serve (.leaseRevoke lease)).2) := by
  show (c.policy.runWith (.leaseRevoke lease) c.policy.retries).complete (clocked horizon plan today) w = _
  cases c.policy.retries with
  | zero =>
    rw [Retry.Policy.runWith, Retry.Policy.attempt, complete_timely _ rfl, h]
    rfl
  | succ n =>
    rw [Retry.Policy.runWith, complete_timely _ rfl, h]
    rfl

/-- The record is written if the key is free; else the lease is given back. -/
theorem Fair.complete_writeLock (horizon : Nat) (today : Nat → Instant) (h : w.Fair) (hp : Unharmed plan)
    (hown : lease ∈ w.own) (h0 : lease ≠ 0) (hn : w.now < due) (hd : w.store.deadline? lease = some due) :
    let w' := ((w.met plan).serve (.txn (r.txn ⟨lease, r.ttl, today w.now, 0⟩))).2
    (c.writeLock r lease).complete (clocked horizon plan today) w =
      if r.FreeIn ((w.met plan).store.expire w.now) then
        some (.taken ⟨lease, r.ttl, today w.now, ((w.met plan).store.expire w.now).revision + 1⟩, w')
      else some (.contended, ((w'.met plan).serve (.leaseRevoke lease)).2) := by
  intro w'
  have hmet := h.met hp
  have hdm := h.deadline?_met plan hown hn hd
  have hdx := Store.deadline?_expire hmet.reached.sound hmet.reached.bindsAll hdm hn
  have hlive : (((w.met plan).store.expire w.now).leases.get? lease).isSome := by
    rw [← Edit.isSome_deadline?, hdx]
    rfl
  obtain ⟨hfair, hans, hstore⟩ := hmet.serve (.txn (r.txn ⟨lease, r.ttl, today w.now, 0⟩))
  rw [Store.answer_take hmet.reached.sound _ r h0, now_met] at hans hstore
  simp only [Client.writeLock, complete_then, complete_today, complete_attempt c (i := .txn _) rfl, Option.bind_some]
  by_cases hf : r.FreeIn ((w.met plan).store.expire w.now)
  · rw [if_pos hf]
    rw [if_pos hf, if_pos hlive] at hans
    rw [hans]
    rfl
  · rw [if_neg hf]
    rw [if_neg hf] at hans hstore
    have hown' : lease ∈ w'.own := by
      show lease ∈ ((w.met plan).serve _).2.own
      rw [own_serve]
      exact List.mem_append_left _ hown
    have hrevokes := (hfair.met hp).revokes hn (hfair.deadline?_met plan hown' hn (hstore.symm ▸ hdx))
    rw [hans]
    simp only
    rw [if_neg Bool.false_ne_true, complete_then, complete_revokeLease c hrevokes]
    rfl

/-- A lease that is granted has its time before it. -/
theorem Fair.grants (h : w.Fair) {ttl : Int} (ht : 0 < ttl) :
    let lease := (w.store.expire w.now).nextLease
    (w.serve (.leaseGrant ttl)).1 = .ok ⟨lease, ttl⟩ ∧ lease ≠ 0 ∧ lease ∈ (w.serve (.leaseGrant ttl)).2.own ∧
      (w.serve (.leaseGrant ttl)).2.store.deadline? lease = some (w.now + ttl.toNat * 1000) := by
  intro lease
  obtain ⟨-, hans, hstore⟩ := h.serve (.leaseGrant ttl)
  have hgrant := Store.answer_grant w.store w.now ht
  have hpos : 0 < lease := (Store.leads_expire h.reached.sound w.now).1.nextLease_pos
  refine ⟨by rw [hans, hgrant], Int.ne_of_gt hpos, ?_, ?_⟩
  · rw [own_serve]
    refine List.mem_append_right _ (Option.mem_toList.2 ?_)
    show (w.store.answer w.now (.leaseGrant ttl)).1.toOption.map (·.id) = _
    rw [hgrant]
    rfl
  · rw [hstore, hgrant]
    exact (Store.deadline?_grant ..).trans (if_pos rfl)

/-- The rest of a round that finds the key absent. -/
theorem Fair.complete_take (today : Nat → Instant) (h : w.Fair) (hp : Unharmed plan) (ht : 0 < r.ttl)
    (hh : w.now + r.ttl.toNat * 1000 < horizon) :
    ∃ a w' vs, Prog.complete (clocked horizon plan today) (do
        match ← c.attempt (.leaseGrant r.ttl) with
        | .error f => return .failed f
        | .ok g => c.writeLock r g.id) w = some (a, w') ∧ w'.Fair ∧ w'.now = w.now ∧ w'.visits = w.visits ++ vs ∧
      ∀ s : Store, (s.expire w.now).current (Utf8.encode r.key) = none →
        a = .contended ∧ Loses r w.now (⟨w.now, .range (.single (Utf8.encode r.key)) none, s⟩ :: vs) ∨
        ∃ l, a = .taken l ∧ Wins r w.now (⟨w.now, .range (.single (Utf8.encode r.key)) none, s⟩ :: vs) l := by
  let w₁ := ((w.met plan).serve (.leaseGrant r.ttl)).2
  let l : Lock := ⟨((w.met plan).store.expire w.now).nextLease, r.ttl, today w.now, 0⟩
  let w₂ := ((w₁.met plan).serve (.txn (r.txn l))).2
  obtain ⟨hg, h0, hown, hdue⟩ := (h.met hp).grants ht
  have hfair₁ : w₁.Fair := ((h.met hp).serve _).1
  have hfair₂ : w₂.Fair := ((hfair₁.met hp).serve _).1
  have hn : w₁.now < w.now + r.ttl.toNat * 1000 := Nat.lt_add_of_pos_right (by omega)
  have hwrite := hfair₁.complete_writeLock c r horizon today hp hown h0 hn hdue
  have hvs : w₂.visits = w.visits ++ [⟨w.now, .leaseGrant r.ttl, (w.met plan).store⟩,
      ⟨w.now, .txn (r.txn l), (w₁.met plan).store⟩] := by
    show w.visits ++ [_] ++ [_] = _
    rw [List.append_assoc]
    rfl
  have htimely : (Call.leaseGrant r.ttl).timely horizon w.now = true := by simp [Call.timely, hh]
  simp only [complete_then, complete_attempt c htimely, Option.bind_some]
  rw [hg]
  by_cases hf : r.FreeIn ((w₁.met plan).store.expire w.now)
  · exact ⟨_, w₂, _, hwrite.trans (if_pos hf), hfair₂, rfl, hvs, fun s hs => .inr ⟨_, rfl, .took (l := l) hs rfl hf⟩⟩
  · refine ⟨_, ((w₂.met plan).serve (.leaseRevoke l.lease)).2, [_, _, ⟨_, _, (w₂.met plan).store⟩],
      hwrite.trans (if_neg hf), ((hfair₂.met hp).serve _).1, rfl, ?_, fun s hs => .inl ⟨rfl, .raced (l := l) hs rfl hf⟩⟩
    rw [visits_serve, visits_met, hvs, List.append_assoc]
    rfl

/-- A round takes no time. -/
theorem Fair.complete_lockRound (today : Nat → Instant) (h : w.Fair) (hp : Unharmed plan) (ht : 0 < r.ttl)
    (hh : w.now + r.ttl.toNat * 1000 < horizon) :
    ∃ a w' vs, (c.lockRound r).complete (clocked horizon plan today) w = some (a, w') ∧ w'.Fair ∧ w'.now = w.now ∧
      w'.visits = w.visits ++ vs ∧
      (a = .contended ∧ Loses r w.now vs ∨ ∃ l, a = .taken l ∧ Wins r w.now vs l) := by
  have hmet := h.met hp
  obtain ⟨hfair, hlook, -⟩ := hmet.serve (.range (.single (Utf8.encode r.key)) none)
  rw [Store.answer_look hmet.reached.sound, now_met] at hlook
  simp only [Client.lockRound, complete_then, complete_attempt c (i := .range _ _) rfl, Option.bind_some]
  rw [hlook]
  cases hcur : ((w.met plan).store.expire w.now).current (Utf8.encode r.key) with
  | some y => exact ⟨.contended, _, [_], rfl, hfair, rfl, rfl, .inl ⟨rfl, .held (hcur ▸ nofun)⟩⟩
  | none =>
    obtain ⟨a, w', vs, hrun, hfair', hnow, hvs, hend⟩ := hfair.complete_take c r today hp ht hh
    refine ⟨a, w', _ :: vs, hrun, hfair', hnow, ?_, hend (w.met plan).store hcur⟩
    rw [hvs, visits_serve, List.append_assoc]
    rfl

/-! ## Rounds -/

/-- How long a round waits before the next one. -/
def pause (r : LockRequest) : Nat := min r.interval longestWait

/-- Attempts from a time on, with what comes of them and when. -/
inductive Contends (r : LockRequest) (deadline : Nat) : Nat → List (List Visit) → Outcome Lock → Nat → Prop
  | late {t : Nat} (h : deadline < t) : Contends r deadline t [] (.error (.lockDeadlineExceeded r.key)) t
  | took {t : Nat} {vs : List Visit} {l : Lock} (h : t ≤ deadline) (hw : Wins r t vs l) :
    Contends r deadline t [vs] (.ok l) t
  | again {t stop : Nat} {vs : List Visit} {us : List (List Visit)} {x : Outcome Lock} (h : t ≤ deadline)
    (hl : Loses r t vs) (hc : Contends r deadline (t + pause r) us x stop) : Contends r deadline t (vs :: us) x stop

theorem Fair.complete_lockRounds (today : Nat → Instant) (hp : Unharmed plan) (ht : 0 < r.ttl)
    (deadline rounds retries : Nat) (hh : deadline + r.ttl.toNat * 1000 < horizon) :
    ∀ {w : Arena}, w.Fair → deadline < w.now + rounds * pause r →
      ∃ x w' us, (c.lockRounds r deadline rounds retries).complete (clocked horizon plan today) w = some (x, w') ∧
        w'.visits = w.visits ++ us.flatten ∧ Contends r deadline w.now us x w'.now := by
  induction rounds with
  | zero =>
    intro w h hr
    have hlate : deadline < w.now := by simpa using hr
    refine ⟨_, _, [], rfl, (List.append_nil _).symm, ?_⟩
    show Contends r deadline w.now [] _ (max (deadline + 1) w.now)
    rw [Nat.max_eq_right hlate]
    exact .late hlate
  | succ rounds ih =>
    intro w h hr
    have hstart : (c.lockRounds r deadline (rounds + 1) retries).complete (clocked horizon plan today) w =
      Prog.complete (clocked horizon plan today) (if deadline < w.now then _ else _) w := rfl
    rw [hstart]
    by_cases hlate : deadline < w.now
    · rw [if_pos hlate]
      exact ⟨_, w, [], rfl, (List.append_nil _).symm, .late hlate⟩
    · rw [if_neg hlate, complete_then]
      obtain ⟨a, w', vs, hround, hfair, hnow, hvs, ⟨rfl, hl⟩ | ⟨l, rfl, hw⟩⟩ :=
        h.complete_lockRound c r today hp ht (Nat.lt_of_le_of_lt (Nat.add_le_add_right (Nat.not_lt.1 hlate) _) hh)
      · rw [hround]
        have hwait : w'.now + pause r = w.now + pause r := by rw [hnow]
        obtain ⟨x, w'', us, hrest, hus, hc⟩ := ih (w := { w' with now := w'.now + pause r })
          ⟨hfair.reached, hfair.unfaulted⟩ (by simp only [hnow]; rw [Nat.add_mul] at hr; omega)
        refine ⟨x, w'', vs :: us, hrest, ?_, .again (Nat.not_lt.1 hlate) hl (hwait ▸ hc)⟩
        rw [hus, List.flatten_cons, ← List.append_assoc, ← hvs]
      · rw [hround]
        exact ⟨_, w', [vs], rfl, by simpa using hvs, hnow.symm ▸ .took (Nat.not_lt.1 hlate) hw⟩

end

/-! ## Times -/

variable {c : Client} {r : LockRequest} {start : Nat}

/-- Attempts from `start` on, one `pause` apart, with what comes of them and when. -/
inductive Exact (r : LockRequest) (start : Nat) : List (List Visit) → Outcome Lock → Nat → Prop
  | took {lost : List (List Visit)} {vs : List Visit} {l : Lock} (hk : lost.length * pause r ≤ r.timeout)
    (hl : ∀ k us, lost[k]? = some us → Loses r (start + k * pause r) us)
    (hw : Wins r (start + lost.length * pause r) vs l) :
    Exact r start (lost ++ [vs]) (.ok l) (start + lost.length * pause r)
  | late {lost : List (List Visit)} (hn : lost.length = r.timeout / pause r + 1)
    (hl : ∀ k us, lost[k]? = some us → Loses r (start + k * pause r) us) :
    Exact r start lost (.error (.lockDeadlineExceeded r.key)) (start + (r.timeout / pause r + 1) * pause r)

/-- The attempts before those that are left were all lost, and in time. -/
theorem Contends.exact {t stop : Nat} {us : List (List Visit)} {x : Outcome Lock}
    (h : Contends r (start + r.timeout) t us x stop) : ∀ lost : List (List Visit),
      (∀ k vs, lost[k]? = some vs → Loses r (start + k * pause r) vs) → (∀ k < lost.length, k * pause r ≤ r.timeout) →
      t = start + lost.length * pause r → Exact r start (lost ++ us) x stop := by
  induction h with
  | late hlate =>
    intro lost hl hin ht
    subst ht
    obtain ⟨n, hn⟩ : ∃ n, lost.length = n + 1 := by
      cases hlen : lost.length with
      | zero =>
        rw [hlen, Nat.zero_mul] at hlate
        omega
      | succ n => exact ⟨n, rfl⟩
    have hdiv : r.timeout / pause r = n :=
      Nat.div_eq_of_lt_le (hin n (by omega)) (by rw [hn] at hlate; omega)
    rw [List.append_nil, hn, ← hdiv]
    exact .late (hn.trans (by rw [hdiv])) hl
  | took hle hw =>
    intro lost hl hin ht
    subst ht
    exact .took (by omega) hl hw
  | @again t stop vs us x hle hlost _ ih =>
    intro lost hl hin ht
    subst ht
    rw [List.append_cons]
    refine ih (lost ++ [vs]) (fun k vs' hk => ?_) (fun k hk => ?_) ?_
    · rcases Nat.lt_or_ge k lost.length with hlt | hge
      · rw [List.getElem?_append_left hlt] at hk
        exact hl k vs' hk
      · obtain ⟨rfl, rfl⟩ : k = lost.length ∧ vs = vs' := by
          rw [List.getElem?_append_right hge] at hk
          have := List.getElem?_eq_some_iff.1 hk
          obtain ⟨hlen, hv⟩ := this
          have hk0 : k - lost.length = 0 := by simpa using hlen
          exact ⟨by omega, by simpa [hk0] using hv⟩
        exact hlost
    · rw [List.length_append, List.length_singleton] at hk
      rcases Nat.lt_or_ge k lost.length with hlt | hge
      · exact hin k hlt
      · rw [show k = lost.length by omega]
        omega
    · rw [List.length_append, List.length_singleton, Nat.add_mul]
      omega

theorem interval_pos (hc : c.config.fault? = none) : 0 < (r.withDefaults c.config.lock).interval := by
  have hd : c.config.lock.interval ≠ 0 := by grind [Config.fault?]
  show 0 < if r.interval = 0 then c.config.lock.interval else r.interval
  split
  · exact Nat.pos_of_ne_zero hd
  · rename_i h
    exact Nat.pos_of_ne_zero h

theorem roundLimit_eq (hp : 0 < pause r) : c.roundLimit r = r.timeout / pause r + c.policy.retries + 2 := by
  have hmax : max 1 (min r.interval longestWait) = pause r := Nat.max_eq_right hp
  rw [Client.roundLimit, hmax]

/-- There are rounds enough to pass the deadline. -/
theorem timeout_lt_roundLimit (hp : 0 < pause r) : r.timeout < c.roundLimit r * pause r := by
  have hdiv : r.timeout < r.timeout / pause r * pause r + pause r := Nat.lt_div_mul_add hp
  rw [roundLimit_eq hp, Nat.add_mul, Nat.add_mul, Nat.succ_mul]
  omega

/-- Taking a lock is exact in time: whatever others do, the first attempt that finds the lock free by the deadline
takes it, and if there is none the time is up one pause after the last. The clock is to tell the end of a lease that
is granted at the deadline. -/
theorem contention_exact {horizon : Nat} {plan : Plan} {today : Nat → Instant} {w : Arena} (hc : c.config.fault? = none)
    (ht : 0 < (r.withDefaults c.config.lock).ttl) (hw : w.Fair) (hp : Unharmed plan)
    (hh : w.now + (r.withDefaults c.config.lock).timeout + (r.withDefaults c.config.lock).ttl.toNat * 1000 < horizon) :
    ∃ x w' us, (c.acquireLock r).run.complete (clocked horizon plan today) w = some (x, w') ∧
      w'.visits = w.visits ++ us.flatten ∧
      Exact (r.withDefaults c.config.lock) w.now us x w'.now ∧ 0 < pause (r.withDefaults c.config.lock) := by
  have hpause : 0 < pause (r.withDefaults c.config.lock) := Nat.lt_min.2 ⟨interval_pos hc, by decide⟩
  obtain ⟨x, w', us, hrun, hus, hcontends⟩ := hw.complete_lockRounds c (r.withDefaults c.config.lock) today hp ht
    (w.now + (r.withDefaults c.config.lock).timeout) (c.roundLimit (r.withDefaults c.config.lock)) c.policy.retries hh
    (Nat.add_lt_add_left (timeout_lt_roundLimit hpause) _)
  exact ⟨x, w', us, hrun, hus, hcontends.exact [] nofun nofun (by simp), hpause⟩

/-- The lock is held until its lease is due at 1000, then another one is faster for a while, and at 1600 it is free. -/
def relieved : Plan := fun n =>
  match n with
  | 5 => [(1200, .call (.put (Utf8.encode "k") [] none))]
  | 7 => [(1300, .call (.deleteRange (.single (Utf8.encode "k"))))]
  | _ => []

theorem contention_exact_relieved :
    let c : Client := .ofConfig Config.standard
    let r : LockRequest := ⟨"k", 1, 2000, 400, []⟩
    let w : Arena := ⟨(Backend.ofMembers ["a"]).moves [(0, .call (.leaseGrant 1)),
      (0, .call (.put (Utf8.encode "k") [] (some 1)))], 0, []⟩
    ((c.acquireLock r).run.complete (clocked (2 ^ 63 * 1000) relieved fun _ => ⟨0, 0⟩) w).map
        (fun y => (y.1.toOption, y.2.now, y.2.visits.map (·.now))) =
        some (some ⟨3, 1, ⟨0, 0⟩, 6⟩, 1600, [0, 400, 800, 1200, 1200, 1200, 1200, 1600, 1600, 1600]) ∧
      ∃ x w' us, (c.acquireLock r).run.complete (clocked (2 ^ 63 * 1000) relieved fun _ => ⟨0, 0⟩) w = some (x, w') ∧
        w'.visits = w.visits ++ us.flatten ∧ Exact (r.withDefaults c.config.lock) w.now us x w'.now ∧
        0 < pause (r.withDefaults c.config.lock) := by
  intro c r w
  have hreached : w.backend.Reached :=
    Backend.Reached.moves _ (.ofMembers ["a"])
  have hplan : Unharmed relieved := fun n t rule h => by
    unfold relieved at h
    split at h <;> simp at h
  exact ⟨by decide +kernel, contention_exact (by decide) (by decide) ⟨hreached, by decide +kernel⟩ hplan (by decide)⟩

/-- A pause of a thousand billion milliseconds ends sooner, and so does the taking of a lock that is held. -/
theorem long_pause_shortened :
    let c : Client := .ofConfig Config.standard
    let r : LockRequest := ⟨"k", 1, 1, 1000000000000, []⟩
    let w : Arena := ⟨(Backend.ofMembers ["a"]).moves [(0, .call (.put (Utf8.encode "k") [] none))], 0, []⟩
    c.config.fault? = none ∧ 0 < (r.withDefaults c.config.lock).ttl ∧ w.Fair ∧ Unharmed (fun _ => []) ∧
      w.now + r.timeout + r.ttl.toNat * 1000 < 2 ^ 63 * 1000 ∧
      ((c.acquireLock r).run.complete (clocked (2 ^ 63 * 1000) (fun _ => []) fun _ => ⟨0, 0⟩) w).map
        (fun y => (match y.1 with | .ok _ => none | .error f => some f, y.2.now)) =
        some (some (.lockDeadlineExceeded "k"), 946080000000) ∧
      946080000000 ≠ w.now + (r.timeout / r.interval + 1) * r.interval := by
  intro c r w
  have hreached : w.backend.Reached :=
    Backend.Reached.moves _ (.ofMembers ["a"])
  exact ⟨by decide, by decide, ⟨hreached, by decide +kernel⟩, fun _ _ _ => nofun, by decide, by decide +kernel,
    by decide⟩

end Arena

end Keyspace
