import Keyspace.Proofs.Lock.Calls
import Keyspace.Proofs.Lock.Record
import Keyspace.Proofs.Run.Arena
import Keyspace.Proofs.Run.Ensures

/-!
# Leases at stake

A lease is at stake for a program that was granted it, and has neither taken a lock with it nor asked for its end.
Where others spare it, it is there until its time is over, so the taking of a lock can fail for it no sooner
(`Arena.ensures_acquireLock`).
-/

namespace Keyspace

/-! ## Visits -/

/-- The lease that a transaction binds its one put to. -/
def Txn.lease? (t : Txn) : Option Int :=
  match t.success with
  | [.put _ _ lease] => lease
  | _ => none

namespace Visit

/-- The lease that a visit puts at stake, or leaves there. -/
def stake? : Visit → Option Int
  | ⟨now, .txn t, s⟩ =>
    match (s.answer now (.txn t)).1 with
    | .ok ⟨true, _⟩ => none
    | _ => t.lease?
  | v => v.granted?

/-- The lease whose end may be asked for after a visit: one at stake, or one that was found. -/
def reach? : Visit → Option Int
  | ⟨now, .range span revision, s⟩ =>
    (s.answer now (.range span revision)).1.toOption.bind fun a => a.records.head?.map (·.lease)
  | v => v.stake?

theorem reach?_of_stake? {v : Visit} {lease : Int} (h : v.stake? = some lease) : v.reach? = some lease := by
  obtain ⟨now, c, s⟩ := v
  cases c <;> first | exact h | cases h

theorem stake?_take {now : Nat} {r : LockRequest} {l : Lock} {s : Store} {lease : Int}
    (h : stake? ⟨now, .txn (r.txn l), s⟩ = some lease) : l.lease = lease := by
  unfold stake? at h
  simp only at h
  split at h
  · cases h
  · exact Option.some.inj h

/-- The lease was granted, to be due then. -/
def Lends (lease : Int) (due : Nat) (v : Visit) : Prop :=
  v.granted? = some lease ∧ ∃ ttl, v.call = .leaseGrant ttl ∧ v.now + ttl.toNat * 1000 = due

end Visit

/-- A record that reads as a lock names the lease that it is bound to. -/
def Record.Honest (y : Record) : Prop := ∀ l, Lock.ofBytes? y.value = some l → l.lease = y.lease

namespace Store

variable {s : Store} {now : Nat} {k : Bytes} {y : Record}

theorem current_of_expire (h : s.Sound) (hb : s.BindsAll) (hy : (s.expire now).current k = some y) :
    s.current k = some y := by
  rw [(endsInTurn_expire h hb now).current, Option.filter_eq_some_iff] at hy
  exact hy.1

theorem current_of_leaseGrant (h : s.Sound) (hb : s.BindsAll) {ttl : Int}
    (hy : (s.answer now (.leaseGrant ttl)).2.current k = some y) : s.current k = some y := by
  by_cases ht : 0 < ttl
  · rw [answer_grant s now ht] at hy
    exact current_of_expire h hb hy
  · rwa [answer_leaseGrant_of_le s now (Int.not_lt.1 ht)] at hy

theorem current_of_leaseRevoke (h : s.Sound) (hb : s.BindsAll) {lease : Int}
    (hy : (s.answer now (.leaseRevoke lease)).2.current k = some y) : s.current k = some y := by
  suffices hx : (s.expire now).current k = some y from current_of_expire h hb hx
  simp only [answer] at hy
  cases hr : (s.expire now).revoke? lease with
  | none =>
    rw [hr] at hy
    exact hy
  | some t =>
    rw [hr] at hy
    have he := ends_of_revoke? (leads_expire h now).1 (bindsAll_expire h hb now) hr
    rw [he.current, Option.filter_eq_some_iff] at hy
    exact hy.1

theorem lease_lt (h : s.Sound) (hb : s.BindsAll) (hy : s.current k = some y) : y.lease < s.nextLease := by
  by_cases h0 : y.lease = 0
  · rw [h0]
    exact h.nextLease_pos
  · obtain ⟨l, hl, -⟩ := hb k y hy h0
    exact (h.leased _ (Option.isSome_of_eq_some hl)).2

end Store

/-- No fault is injected, and what reads as a lock is honest. -/
structure Backend.Fit (b : Backend) : Prop where
  reached : b.Reached
  unfaulted : b.faults = []
  honest : ∀ k y, b.store.current k = some y → y.Honest

theorem Backend.Fit.fair {w : Arena} (h : w.backend.Fit) : w.Fair := ⟨h.reached, h.unfaulted⟩

namespace Arena

variable {w w' : Arena} {lease : Int} {due : Nat} {c : Call}

def stake? (w : Arena) : Option Int := w.visits.getLast?.bind Visit.stake?

def reach? (w : Arena) : Option Int := w.visits.getLast?.bind Visit.reach?

@[simp] theorem stake?_serve (c : Call) (w : Arena) : (w.serve c).2.stake? = Visit.stake? ⟨w.now, c, w.store⟩ := by
  simp [stake?]

@[simp] theorem reach?_serve (c : Call) (w : Arena) : (w.serve c).2.reach? = Visit.reach? ⟨w.now, c, w.store⟩ := by
  simp [reach?]

theorem reach?_of_stake? (h : w.stake? = some lease) : w.reach? = some lease := by
  obtain ⟨v, hv, hs⟩ := Option.bind_eq_some_iff.1 h
  exact Option.bind_eq_some_iff.2 ⟨v, hv, Visit.reach?_of_stake? hs⟩

/-- The calls of a program that takes and releases locks. -/
inductive May (w : Arena) : Call → Prop
  | look (k : Bytes) : May w (.range (.single k) none)
  | grant (ttl : Int) : May w (.leaseGrant ttl)
  | take (r : LockRequest) (l : Lock) (hl : l.lease ≠ 0) (h : w.stake? = some l.lease) : May w (.txn (r.txn l))
  | revoke (lease : Int) (h : w.reach? = some lease) : May w (.leaseRevoke lease)

/-! ## Calls -/

/-- A record that a call leaves was there, or it is that of a lock taken with the lease at stake. -/
theorem May.current (hm : w.May c) (h : w.backend.Fit) {k : Bytes} {y : Record}
    (hy : (w.serve c).2.store.current k = some y) :
    w.store.current k = some y ∨
      w.stake? = some y.lease ∧ (w.serve c).2.stake? = none ∧ ∃ l : Lock, y.value = l.toBytes ∧ y.lease = l.lease := by
  have hsound := h.reached.sound
  have hbinds := h.reached.bindsAll
  rw [(h.fair.serve c).2.2] at hy
  cases hm with
  | look k' =>
    rw [Store.answer_look hsound] at hy
    exact .inl (Store.current_of_expire hsound hbinds hy)
  | grant ttl => exact .inl (Store.current_of_leaseGrant hsound hbinds hy)
  | revoke lease _ => exact .inl (Store.current_of_leaseRevoke hsound hbinds hy)
  | take r l hl hstake =>
    have hans := Store.answer_take hsound w.now r hl
    rw [hans] at hy
    split at hy
    · split at hy
      · rename_i hfree hlive
        rw [if_pos hfree, if_pos hlive] at hans
        rw [Store.current_commit_put] at hy
        split at hy
        · cases hy
          refine .inr ⟨hstake, ?_, l, rfl, rfl⟩
          rw [stake?_serve, Visit.stake?, hans]
        · exact .inl (Store.current_of_expire hsound hbinds hy)
      · exact .inl (Store.current_of_expire hsound hbinds hy)
    · exact .inl (Store.current_of_expire hsound hbinds hy)

theorem May.fit (hm : w.May c) (h : w.backend.Fit) : (w.serve c).2.backend.Fit := by
  refine ⟨(h.fair.serve c).1.reached, (h.fair.serve c).1.unfaulted, fun k y hy => ?_⟩
  rcases hm.current h hy with hold | ⟨-, -, l, hv, hl⟩
  · exact h.honest k y hold
  · exact fun _ => (Record.namesLease_of_value hv hl).lease_eq

/-- What there is to say of an arena after a call, or none. -/
structure Follows (w w' : Arena) : Prop where
  fit : w'.backend.Fit
  now : w'.now = w.now
  nextLease : w.store.nextLease ≤ w'.store.nextLease
  current : ∀ k y, w'.store.current k = some y →
    w.store.current k = some y ∨ w.stake? = some y.lease ∧ w'.stake? = none
  /-- A lease out of reach is spared. -/
  spares : ∀ lease due, w.reach? ≠ some lease → w.store.deadline? lease = some due →
    w'.store.deadline? lease = some due ∨ due ≤ w'.now
  stake : ∀ lease, w'.stake? = some lease → w.stake? = some lease ∨ w.store.nextLease ≤ lease
  reach : ∀ lease, w'.reach? = some lease → w.reach? = some lease ∨
    w.store.nextLease ≤ lease ∧ lease < w'.store.nextLease ∨ ∃ k y, w.store.current k = some y ∧ y.lease = lease

theorem Follows.refl (h : w.backend.Fit) : Follows w w :=
  ⟨h, rfl, Int.le_refl _, fun _ _ hy => .inl hy, fun _ _ _ hd => .inl hd, fun _ hl => .inl hl, fun _ hl => .inl hl⟩

theorem granted_serve (h : w.backend.Fit) {ttl : Int}
    (hg : Visit.granted? ⟨w.now, .leaseGrant ttl, w.store⟩ = some lease) :
    w.store.nextLease ≤ lease ∧ lease < (w.serve (.leaseGrant ttl)).2.store.nextLease := by
  obtain ⟨g, ha, rfl⟩ := Visit.answer_of_granted? hg
  obtain ⟨hid, hnext⟩ := Store.id_of_answer_grant ha
  rw [(h.fair.serve (.leaseGrant ttl)).2.2, hnext, hid]
  exact ⟨(Store.leads_expire h.reached.sound w.now).nextLease_le, Int.lt_succ _⟩

theorem May.follows (hm : w.May c) (h : w.backend.Fit) : Follows w (w.serve c).2 := by
  have hsound := h.reached.sound
  refine ⟨hm.fit h, rfl, ?_, fun k y hy => (hm.current h hy).imp_right fun hy => ⟨hy.1, hy.2.1⟩,
    fun lease due hr hd => ?_, fun lease hl => ?_, fun lease hl => ?_⟩
  · rw [(h.fair.serve c).2.2]
    exact (Store.leads_answer hsound w.now c).nextLease_le
  · rcases Nat.lt_or_ge w.now due with hn | hn
    · refine .inl (Backend.deadline?_move (m := .call c) hsound h.reached.bindsAll hd hn fun he => ?_)
      cases hm with
      | revoke lease' hr' =>
        cases he
        exact hr hr'
      | _ => cases he
    · exact .inr hn
  · rw [stake?_serve] at hl
    cases hm with
    | look k => cases hl
    | revoke lease' _ => cases hl
    | grant ttl => exact .inr (granted_serve h hl).1
    | take r l h0 hstake => exact .inl (Visit.stake?_take hl ▸ hstake)
  · rw [reach?_serve] at hl
    cases hm with
    | look k =>
      unfold Visit.reach? at hl
      simp only [Store.answer_look hsound] at hl
      cases hc : (w.store.expire w.now).current k with
      | none =>
        rw [hc] at hl
        cases hl
      | some y =>
        rw [hc] at hl
        cases hl
        exact .inr (.inr ⟨k, y, Store.current_of_expire hsound h.reached.bindsAll hc, rfl⟩)
    | revoke lease' _ => cases hl
    | grant ttl => exact .inr (.inl (granted_serve h hl))
    | take r l h0 hstake => exact .inl (reach?_of_stake? (Visit.stake?_take hl ▸ hstake))

/-! ## The setting -/

/-- What others leave to a program: its visits, and the lease at stake until its time is over. -/
structure Spared (w w' : Arena) : Prop where
  visits : w'.visits = w.visits
  now : w.now ≤ w'.now
  fit : w.backend.Fit → w'.backend.Fit
  stake : ∀ lease due, w.stake? = some lease → w.store.deadline? lease = some due →
    w'.store.deadline? lease = some due ∨ due ≤ w'.now

theorem Spared.stake?_eq (h : Spared w w') : w'.stake? = w.stake? := by
  unfold stake?
  rw [h.visits]

theorem Spared.reach?_eq (h : Spared w w') : w'.reach? = w.reach? := by
  unfold reach?
  rw [h.visits]

theorem Spared.refl (w : Arena) : Spared w w := ⟨rfl, Nat.le_refl _, id, fun _ _ _ hd => .inl hd⟩

theorem Spared.trans {w'' : Arena} (h : Spared w w') (h' : Spared w' w'') : Spared w w'' where
  visits := h'.visits.trans h.visits
  now := Nat.le_trans h.now h'.now
  fit hw := h'.fit (h.fit hw)
  stake lease due hs hd := by
    rcases h.stake lease due hs hd with hd' | hle
    · exact h'.stake lease due (h.stake?_eq.trans hs) hd'
    · exact .inr (Nat.le_trans hle h'.now)

def rivaling : Setting Arena where
  may := May
  serves c w r w' := r = (w.serve c).1 ∧ w' = (w.serve c).2
  others := Spared
  refl := .refl
  trans := .trans

/-! ## Blame -/

/-- The lease was granted to the program, and its time is over. -/
def RanOut (w : Arena) (lease : Int) : Prop := ∃ due ≤ w.now, ∃ v ∈ w.visits, v.Lends lease due

/-- How the taking of a lock can fail. -/
inductive Blames (r : LockRequest) (w : Arena) : Failure → Prop
  | late : Blames r w (.lockDeadlineExceeded r.key)
  | ranOut (lease : Int) (h : w.RanOut lease) : Blames r w (.leaseNotFound lease)
  | noTime (h : r.ttl ≤ 0) : Blames r w (.invalidRequest ("lease ttl must be > 0, got " ++ toString r.ttl))

theorem RanOut.spared (h : w.RanOut lease) (ho : Spared w w') : w'.RanOut lease := by
  obtain ⟨due, hle, v, hv, hl⟩ := h
  exact ⟨due, Nat.le_trans hle ho.now, v, ho.visits ▸ hv, hl⟩

theorem Blames.spared {r : LockRequest} {f : Failure} (h : w.Blames r f) (ho : Spared w w') : w'.Blames r f := by
  cases h with
  | late => exact .late
  | ranOut lease h => exact .ranOut lease (h.spared ho)
  | noTime h => exact .noTime h

theorem Blames.not_isTransient {r : LockRequest} {f : Failure} (h : w.Blames r f) : f.isTransient = false := by
  cases h <;> rfl

/-! ## Stakes -/

structure Staked (lease : Int) (due : Nat) (w : Arena) : Prop where
  fit : w.backend.Fit
  stake : w.stake? = some lease
  ne : lease ≠ 0
  lent : ∃ v ∈ w.visits, v.Lends lease due
  live : w.store.deadline? lease = some due ∨ due ≤ w.now

theorem Staked.spared (h : Staked lease due w) (ho : Spared w w') : Staked lease due w' where
  fit := ho.fit h.fit
  stake := ho.stake?_eq.trans h.stake
  ne := h.ne
  lent := ho.visits ▸ h.lent
  live := h.live.elim (ho.stake lease due h.stake) fun hle => .inr (Nat.le_trans hle ho.now)

theorem Staked.ranOut (h : Staked lease due w) (hd : due ≤ w.now) : w.RanOut lease := ⟨due, hd, h.lent⟩

theorem Staked.serve (h : Staked lease due w) (hm : w.May c) (hs : (w.serve c).2.stake? = some lease)
    (hc : c ≠ .leaseRevoke lease) : Staked lease due (w.serve c).2 := by
  refine ⟨hm.fit h.fit, hs, h.ne, ?_, ?_⟩
  · obtain ⟨v, hv, hl⟩ := h.lent
    exact ⟨v, List.mem_append_left _ hv, hl⟩
  · rcases h.live with hd | hle
    · rcases Nat.lt_or_ge w.now due with hn | hn
      · exact .inl (Backend.deadline?_move (m := .call c) h.fit.reached.sound h.fit.reached.bindsAll hd hn
          fun he => hc (Move.call.inj he))
      · exact .inr hn
    · exact .inr hle

/-- A grant that ends well puts the lease at stake, and no other failure is heard of it than that of no time. -/
theorem grant_cases (h : w.backend.Fit) (ttl : Int) :
    (∃ g due, (w.serve (.leaseGrant ttl)).1 = .ok g ∧ Staked g.id due (w.serve (.leaseGrant ttl)).2) ∨
      ttl ≤ 0 ∧ (w.serve (.leaseGrant ttl)).1 =
        .error (.invalidRequest ("lease ttl must be > 0, got " ++ toString ttl)) := by
  obtain ⟨-, hans, hstore⟩ := h.fair.serve (.leaseGrant ttl)
  rcases Int.lt_or_le 0 ttl with ht | ht
  · have hgrant := Store.answer_grant w.store w.now ht
    have hpos := (Store.leads_expire h.reached.sound w.now).1.nextLease_pos
    have hg : Visit.granted? ⟨w.now, .leaseGrant ttl, w.store⟩ = some (w.store.expire w.now).nextLease := by
      simp only [Visit.granted?, hgrant]
      rfl
    refine .inl ⟨⟨(w.store.expire w.now).nextLease, ttl⟩, w.now + ttl.toNat * 1000, by rw [hans, hgrant],
      (May.grant ttl).fit h, ?_, Int.ne_of_gt hpos, ?_, .inl ?_⟩
    · rw [stake?_serve]
      exact hg
    · exact ⟨_, List.mem_append_right _ (List.mem_singleton.2 rfl), hg, ttl, rfl, rfl⟩
    · rw [hstore, hgrant]
      exact (Store.deadline?_grant ..).trans (if_pos rfl)
  · rw [hans, Store.answer_leaseGrant_of_le _ _ ht]
    exact .inr ⟨ht, rfl⟩

theorem Staked.take_cases (h : Staked lease due w) (r : LockRequest) {l : Lock} (hl : l.lease = lease) :
    (∃ n, (w.serve (.txn (r.txn l))).1 = .ok ⟨true, n⟩) ∨
      Staked lease due (w.serve (.txn (r.txn l))).2 ∧
        ((∃ n, (w.serve (.txn (r.txn l))).1 = .ok ⟨false, n⟩) ∨
          (w.serve (.txn (r.txn l))).1 = .error (.leaseNotFound lease) ∧ due ≤ w.now) := by
  subst hl
  have hsound := h.fit.reached.sound
  have htake := Store.answer_take hsound w.now r h.ne
  have hstays : (w.serve (.txn (r.txn l))).2.stake? = some l.lease →
      Staked l.lease due (w.serve (.txn (r.txn l))).2 := fun hs => h.serve (.take r l h.ne h.stake) hs nofun
  rw [stake?_serve] at hstays
  rw [(h.fit.fair.serve _).2.1]
  simp only [Visit.stake?, htake] at hstays ⊢
  by_cases hf : r.FreeIn (w.store.expire w.now)
  · simp only [if_pos hf] at hstays ⊢
    by_cases hlive : ((w.store.expire w.now).leases.get? l.lease).isSome
    · rw [if_pos hlive]
      exact .inl ⟨_, rfl⟩
    · simp only [if_neg hlive] at hstays ⊢
      refine .inr ⟨hstays rfl, .inr ⟨trivial, Nat.not_lt.1 fun hn => hlive ?_⟩⟩
      rw [← Edit.isSome_deadline?, Store.deadline?_expire hsound h.fit.reached.bindsAll
        (h.live.resolve_right (Nat.not_le.2 hn)) hn]
      rfl
  · simp only [if_neg hf] at hstays ⊢
    exact .inr ⟨hstays rfl, .inl ⟨_, rfl⟩⟩

theorem failure_of_leaseRevoke (h : w.backend.Fit) {f : Failure} (hf : (w.serve (.leaseRevoke lease)).1 = .error f) :
    f = .leaseNotFound lease := by
  rw [(h.fair.serve _).2.1] at hf
  simp only [Store.answer] at hf
  split at hf
  · cases hf
    rfl
  · cases hf

theorem Staked.due_of_leaseRevoke (h : Staked lease due w) {f : Failure}
    (hf : (w.serve (.leaseRevoke lease)).1 = .error f) : due ≤ w.now := by
  refine Nat.not_lt.1 fun hn => ?_
  rw [h.fit.fair.revokes hn (h.live.resolve_right (Nat.not_le.2 hn))] at hf
  cases hf

/-! ## Rounds -/

section

variable {φ : Call → Type} (c : Client) (r : LockRequest)

theorem ensures_attempt {i : Call} {Q : Outcome i.Answer → Arena → Prop}
    (h : ∀ w', Spared w w' → w'.May i ∧ ∀ w'', Spared (w'.serve i).2 w'' → Q (w'.serve i).1 w'') :
    (c.attempt i : Prog Call.Answer φ _).Ensures rivaling Q w := by
  intro w' ho
  refine ⟨(h w' ho).1, ?_⟩
  rintro _ _ ⟨rfl, rfl⟩
  exact (h w' ho).2

theorem ensures_call {i : Call} {Q : Outcome i.Answer → Arena → Prop}
    (h : ∀ w', Spared w w' → w'.May i ∧ (∀ f, (w'.serve i).1 = .error f → f.isTransient = false) ∧
      ∀ w'', Spared (w'.serve i).2 w'' → Q (w'.serve i).1 w'') :
    (c.call i : Action Call.Answer φ _).run.Ensures rivaling Q w :=
  .runWith_once _ (ensures_attempt c fun w' ho =>
    ⟨(h w' ho).1, fun w'' ho' => ⟨(h w' ho).2.2 w'' ho', (h w' ho).2.1⟩⟩)

theorem Staked.ensures_revokeLease (h : Staked lease due w) :
    (c.revokeLease lease : Action Call.Answer φ Unit).run.Ensures rivaling
      (fun x w' => w'.backend.Fit ∧ (w.RanOut lease → w'.RanOut lease) ∧
        ∀ f, x = .error f → f = .leaseNotFound lease ∧ w'.RanOut lease) w := by
  refine ensures_call (i := .leaseRevoke lease) c fun w' ho => ?_
  have h' := h.spared ho
  have hm : w'.May (.leaseRevoke lease) := .revoke lease (reach?_of_stake? h'.stake)
  have hkeep : w'.RanOut lease → (w'.serve (.leaseRevoke lease)).2.RanOut lease := fun ⟨due, hle, v, hv, hl⟩ =>
    ⟨due, hle, v, List.mem_append_left _ hv, hl⟩
  refine ⟨hm, fun f hf => ?_, fun w'' ho' => ⟨ho'.fit (hm.fit h'.fit), fun hr => (hkeep (hr.spared ho)).spared ho',
    fun f hf => ⟨failure_of_leaseRevoke h'.fit hf, (hkeep (h'.ranOut (h'.due_of_leaseRevoke hf))).spared ho'⟩⟩⟩
  rw [failure_of_leaseRevoke h'.fit hf]
  rfl

def Leaves (r : LockRequest) : LockRound → Arena → Prop
  | .failed f, w | .fatal f, w => w.Blames r f
  | _, w => w.backend.Fit

theorem Staked.ensures_writeLock (h : Staked lease due w) :
    (c.writeLock r lease : Prog Call.Answer φ LockRound).Ensures rivaling (Leaves r) w := by
  intro today
  let l : Lock := ⟨lease, r.ttl, today, 0⟩
  have htxn : (c.attempt (.txn (r.txn l)) : Prog Call.Answer φ _).Ensures rivaling (fun x w =>
      (∃ n, x = .ok ⟨true, n⟩) ∧ w.backend.Fit ∨ Staked lease due w ∧
        ((∃ n, x = .ok ⟨false, n⟩) ∨ x = .error (.leaseNotFound lease) ∧ w.RanOut lease)) w := by
    refine ensures_attempt c fun w' ho => ?_
    have h' := h.spared ho
    have hm : w'.May (.txn (r.txn l)) := .take r l h'.ne h'.stake
    refine ⟨hm, fun w'' ho' => ?_⟩
    rcases h'.take_cases r (l := l) rfl with hok | ⟨hs, hlost | ⟨herr, hle⟩⟩
    · exact .inl ⟨hok, ho'.fit (hm.fit h'.fit)⟩
    · exact .inr ⟨hs.spared ho', .inl hlost⟩
    · exact .inr ⟨hs.spared ho', .inr ⟨herr, (hs.ranOut hle).spared ho'⟩⟩
  refine htxn.bind fun x w hx => ?_
  rcases hx with ⟨⟨n, rfl⟩, hfit⟩ | ⟨hs, ⟨n, rfl⟩ | ⟨rfl, hran⟩⟩
  · exact fun _ ho => ho.fit hfit
  · refine (hs.ensures_revokeLease c).bind fun x w' hx => ?_
    obtain ⟨hfit, -, herr⟩ := hx
    cases x with
    | ok _ => exact fun _ ho => ho.fit hfit
    | error f =>
      obtain ⟨rfl, hran⟩ := herr f rfl
      exact fun _ ho => .ranOut lease (hran.spared ho)
  · refine (hs.ensures_revokeLease c).bind fun x w' hx => ?_
    have hran' := hx.2.1 hran
    cases x <;> exact fun _ ho => .ranOut lease (hran'.spared ho)

theorem ensures_lockRound (h : w.backend.Fit) :
    (c.lockRound r : Prog Call.Answer φ LockRound).Ensures rivaling (Leaves r) w := by
  have hlook : (c.attempt (.range (.single (Utf8.encode r.key)) none) : Prog Call.Answer φ _).Ensures rivaling
      (fun x w => w.backend.Fit ∧ ∃ a, x = .ok a) w := by
    refine ensures_attempt c fun w' ho => ⟨.look _, fun w'' ho' => ⟨ho'.fit ((May.look _).fit (ho.fit h)), ?_⟩⟩
    rw [((ho.fit h).fair.serve _).2.1, Store.answer_look (ho.fit h).reached.sound]
    exact ⟨_, rfl⟩
  refine hlook.bind fun x w hx => ?_
  obtain ⟨hfit, a, rfl⟩ := hx
  simp only
  split
  · exact fun _ ho => ho.fit hfit
  · have hgrant : (c.attempt (.leaseGrant r.ttl) : Prog Call.Answer φ _).Ensures rivaling (fun x w =>
        (∃ g due, x = .ok g ∧ Staked g.id due w) ∨ ∃ f, x = .error f ∧ w.Blames r f) w := by
      refine ensures_attempt c fun w' ho => ⟨.grant _, fun w'' ho' => ?_⟩
      rcases grant_cases (ho.fit hfit) r.ttl with ⟨g, due, hg, hs⟩ | ⟨ht, herr⟩
      · exact .inl ⟨g, due, hg, hs.spared ho'⟩
      · exact .inr ⟨_, herr, .noTime ht⟩
    refine hgrant.bind fun x w hx => ?_
    rcases hx with ⟨g, due, rfl, hs⟩ | ⟨f, rfl, hb⟩
    · exact hs.ensures_writeLock c r
    · exact fun _ ho => hb.spared ho

def Tells (r : LockRequest) : Outcome Lock → Arena → Prop
  | .ok _, _ => True
  | .error f, w => w.Blames r f

theorem Tells.spared {x : Outcome Lock} (h : Tells r x w) (ho : Spared w w') : Tells r x w' := by
  cases x with
  | ok l => trivial
  | error f => exact Blames.spared h ho

theorem ensures_acquireLock (h : w.backend.Fit) :
    (c.acquireLock r : Action Call.Answer φ Lock).run.Ensures rivaling (Tells (r.withDefaults c.config.lock)) w := by
  intro now
  refine c.ensures_lockRounds (P := fun w => w.backend.Fit) (r.withDefaults c.config.lock) _ _ (Tells.spared _)
    (fun _ => .late) (fun h => (ensures_lockRound c _ h).mono fun x w hx => ?_) _ h
  cases x with
  | taken l => trivial
  | contended => exact hx
  | fatal f => exact hx
  | failed f =>
    -- No failure of a round is worth another one.
    refine ⟨hx, fun ht => ?_⟩
    rw [Blames.not_isTransient hx] at ht
    cases ht

/-! ## Releases -/

/-- A record that is found is honest, and its lease is within reach. -/
theorem ensures_look (k : Bytes) (h : w.backend.Fit) :
    (c.call (.range (.single k) none) : Action Call.Answer φ _).run.Ensures rivaling
      (fun x w => w.backend.Fit ∧
        ∀ a : RangeAnswer, x = .ok a → ∀ y ∈ a.records, y.Honest ∧ w.reach? = some y.lease) w := by
  refine ensures_call (i := .range (.single k) none) c fun w' ho => ?_
  have hfit := ho.fit h
  have hsound := hfit.reached.sound
  have hans : (w'.serve (.range (.single k) none)).1 = _ := (hfit.fair.serve _).2.1
  rw [Store.answer_look hsound] at hans
  rw [hans]
  refine ⟨.look k, nofun, fun w'' ho' => ⟨ho'.fit ((May.look k).fit hfit), fun a ha y hy => ?_⟩⟩
  cases ha
  have hcur : (w'.store.expire w'.now).current k = some y := Option.mem_toList.1 hy
  refine ⟨hfit.honest k y (Store.current_of_expire hsound hfit.reached.bindsAll hcur), ?_⟩
  rw [ho'.reach?_eq, reach?_serve, Visit.reach?, Store.answer_look hsound, hcur]
  rfl

theorem ensures_readLock (key : String) (h : w.backend.Fit) :
    (c.readLock key : Action Call.Answer φ Lock).run.Ensures rivaling
      (fun x w => ∀ l, x = .ok l → w.backend.Fit ∧ w.reach? = some l.lease) w := by
  have hget : (c.get key none : Action Call.Answer φ _).run.Ensures rivaling (fun x w => ∀ e, x = .ok (some e) →
      w.backend.Fit ∧ ∃ y : Record, y.Honest ∧ w.reach? = some y.lease ∧ e.value = y.value) w := by
    refine Action.ensures_ok (fun _ _ => nofun) (ensures_look c (Utf8.encode key) h) fun a w ha w' ho e he => ?_
    obtain ⟨r, hr, rfl⟩ := Option.map_eq_some_iff.1 (Except.ok.inj he)
    obtain ⟨hhonest, hreach⟩ := ha.2 a rfl r (List.mem_of_find?_eq_some hr)
    exact ⟨ho.fit ha.1, r, hhonest, ho.reach?_eq.trans hreach, rfl⟩
  refine Action.ensures_ok (fun _ _ => nofun) hget fun e w he => ?_
  cases e with
  | none => exact fun _ _ => nofun
  | some e =>
    obtain ⟨hfit, y, hhonest, hreach, hvalue⟩ := he e rfl
    simp only
    cases hl : Lock.ofBytes? e.value with
    | none => exact fun _ _ => nofun
    | some l =>
      intro w' ho l' hl'
      cases hl'
      refine ⟨ho.fit hfit, ?_⟩
      rw [ho.reach?_eq, hreach]
      exact congrArg some (hhonest l (hvalue ▸ hl)).symm

theorem ensures_releaseLock (key : String) (h : w.backend.Fit) :
    (c.releaseLock key : Action Call.Answer φ Unit).run.Ensures rivaling (fun _ _ => True) w := by
  refine Action.ensures_ok (fun _ _ => trivial) (ensures_readLock c key h) fun l w hl => ?_
  obtain ⟨hfit, hreach⟩ := hl l rfl
  refine ensures_call (i := .leaseRevoke l.lease) c fun w' ho =>
    ⟨.revoke _ (ho.reach?_eq.trans hreach), fun f hf => ?_, fun _ _ => trivial⟩
  rw [failure_of_leaseRevoke (ho.fit hfit) hf]
  rfl

end

end Arena

end Keyspace
