import Keyspace.Proofs.Store.Advance

/-!
# What calls do to a store

A call first ends the leases that are due and then does what it is for. `Leads` is a way to a sound
store with events of one kind; every call is one whose events are at keys that it writes, or delete
keys that were bound to a lease (`leads_answer`).
-/

namespace Keyspace

/-! ## What is written -/

def Op.Writes : Op → Bytes → Prop
  | .put key _ _, k => key = k
  | .delete span, k => span.contains k = true

def Call.Writes : Call → Bytes → Prop
  | .put key _ _, k => key = k
  | .deleteRange span, k => span.contains k = true
  | .txn t, k => ∃ op, (op ∈ t.success ∨ op ∈ t.failure) ∧ op.Writes k
  | _, _ => False

namespace Edit

theorem mem_events_put {e : Edit} {key value : Bytes} {lease : Option Int} {ev : Event}
    (h : ev ∈ (e.put key value lease).events) : ev ∈ e.events ∨ ev.record.key = key := by
  rcases List.mem_append.1 h with h | h
  · exact .inl h
  · rw [List.mem_singleton.1 h]
    exact .inr rfl

theorem mem_events_remove {e : Edit} {key : Bytes} {ev : Event} (h : ev ∈ (e.remove key).events) :
    ev ∈ e.events ∨ (ev.kind = .delete ∧ ev.record.key = key) := by
  cases hc : e.store.current key with
  | none =>
    rw [remove_of_absent hc] at h
    exact .inl h
  | some r =>
    rw [remove_eq_write hc] at h
    rcases List.mem_append.1 h with h | h
    · exact .inl h
    · rw [List.mem_singleton.1 h]
      exact .inr ⟨rfl, rfl⟩

theorem mem_events_removeAll (keys : List Bytes) {ev : Event} :
    ∀ {e : Edit}, ev ∈ (keys.foldl Edit.remove e).events →
      ev ∈ e.events ∨ (ev.kind = .delete ∧ ev.record.key ∈ keys) := by
  induction keys with
  | nil => intro e h; exact .inl h
  | cons k keys ih =>
    intro e h
    rcases ih h with h | ⟨hk, hm⟩
    · rcases mem_events_remove h with h | ⟨hk, he⟩
      · exact .inl h
      · exact .inr ⟨hk, he ▸ List.mem_cons_self⟩
    · exact .inr ⟨hk, List.mem_cons_of_mem _ hm⟩

theorem mem_events_apply {e : Edit} {op : Op} {ev : Event} (h : ev ∈ (e.apply op).events) :
    ev ∈ e.events ∨ op.Writes ev.record.key := by
  cases op with
  | put key value lease => exact (mem_events_put h).imp_right Eq.symm
  | delete span =>
    rcases mem_events_removeAll _ h with h | ⟨_, hm⟩
    · exact .inl h
    · exact .inr ((e.store.mem_keysIn span _).1 hm).1

theorem mem_events_applyAll (ops : List Op) {ev : Event} :
    ∀ {e : Edit}, ev ∈ (e.applyAll ops).events → ev ∈ e.events ∨ ∃ op ∈ ops, op.Writes ev.record.key := by
  induction ops with
  | nil => intro e h; exact .inl h
  | cons op ops ih =>
    intro e h
    rcases ih h with h | ⟨o, ho, hw⟩
    · rcases mem_events_apply h with h | hw
      · exact .inl h
      · exact .inr ⟨op, by simp, hw⟩
    · exact .inr ⟨o, List.mem_cons_of_mem _ ho, hw⟩

end Edit

namespace Store

variable {s s' s'' : Store} {P Q : Event → Prop}

/-! ## Ways with events of one kind -/

/-- A way to a sound store on which every event is one of `P`. -/
def Leads (s : Store) (P : Event → Prop) (s' : Store) : Prop :=
  s'.Sound ∧ ∃ bs, s.Advances bs s' ∧ ∀ b ∈ bs, ∀ e ∈ b.events, P e

theorem Leads.refl (h : s.Sound) : s.Leads P s := ⟨h, [], .refl h, by simp⟩

theorem Leads.mono (h : s.Leads P s') (hpq : ∀ e, P e → Q e) : s.Leads Q s' := by
  obtain ⟨hs, bs, ha, hb⟩ := h
  exact ⟨hs, bs, ha, fun b hm e he => hpq e (hb b hm e he)⟩

theorem Leads.trans (h : s.Leads P s') (h' : s'.Leads P s'') : s.Leads P s'' := by
  obtain ⟨_, bs, ha, hb⟩ := h
  obtain ⟨hs', bs', ha', hb'⟩ := h'
  refine ⟨hs', bs ++ bs', ha.trans ha', fun b hm => ?_⟩
  exact (List.mem_append.1 hm).elim (hb b) (hb' b)

theorem Leads.revision_le (h : s.Leads P s') : s.revision ≤ s'.revision := by
  obtain ⟨_, bs, ha, _⟩ := h
  have := ha.revision
  omega

theorem Leads.floor_le (h : s.Leads P s') : s.floor ≤ s'.floor := by
  obtain ⟨_, bs, ha, _⟩ := h
  exact ha.floor

theorem Leads.nextLease_le (h : s.Leads P s') : s.nextLease ≤ s'.nextLease := by
  obtain ⟨_, bs, ha, _⟩ := h
  exact ha.nextLease

theorem Leads.past (h : s.Leads P s') {r : Int} (hf : s'.floor ≤ r) (hr : r ≤ s.revision) :
    s'.asOf r = s.asOf r := by
  obtain ⟨_, bs, ha, _⟩ := h
  exact ha.past r hf hr

theorem Leads.still (h : s.Sound) (hr : s'.revision = s.revision) (hf : s'.floor = s.floor)
    (hh : s'.histories = s.histories) (hl : s'.log = s.log) (hn : s'.nextLease = s.nextLease)
    (hlease : s'.leases = s.leases) : s.Leads P s' := by
  refine ⟨⟨?_, ?_, ?_, ?_, ?_, ?_, ?_, ?_, ?_⟩, [], ?_, by simp⟩
  · rw [hr]; exact h.revision_pos
  · rw [hf]; exact h.floor_nonneg
  · rw [hf, hr]; exact h.floor_le
  · unfold Dated; rw [hh, hr]; exact h.dated
  · intro lease key hb
    have := h.binds lease key (by unfold Binds at *; rwa [hlease] at hb)
    unfold current at *; rwa [hh]
  · rw [hlease, hn]; exact h.leased
  · rw [hn]; exact h.nextLease_pos
  · rw [hl, hf, hr]; exact h.logged
  · rw [hl]; exact h.ordered
  · exact .still h hr hf hh hl (by omega) fun lease hlive => .inl (by rwa [← hlease])

end Store

theorem Edit.Stands.leads {s : Store} {e : Edit} {P : Event → Prop} (hs : s.Sound) (h : e.Stands s)
    (he : ∀ ev ∈ e.events, P ev) : s.Leads P e.commit := by
  refine ⟨h.sound hs, e.batches, h.advances hs, fun b hb ev hev => ?_⟩
  unfold Edit.batches at hb
  split at hb
  · cases hb
  · rw [List.mem_singleton.1 hb] at hev
    exact he ev hev

namespace Store

variable {s s' : Store}

theorem Sound.stands_start (h : s.Sound) : (Edit.start s).Stands s := .start h.dated h.binds

theorem Sound.stands_applyAll (h : s.Sound) (ops : List Op) : ((Edit.start s).applyAll ops).Stands s :=
  .applyAll (Int.le_of_lt h.revision_pos) (fun lease hl => (h.leased lease hl).1) ops h.stands_start

theorem leads_commit (h : s.Sound) (ops : List Op) :
    s.Leads (fun e => ∃ op ∈ ops, op.Writes e.record.key) (s.commit ops) :=
  (h.stands_applyAll ops).leads h fun ev hev => by
    rcases Edit.mem_events_applyAll ops hev with hev | hw
    · cases hev
    · exact hw

/-! ## Ending leases -/

/-- A deletion of a key that is bound to a lease. -/
def Frees (s : Store) (e : Event) : Prop :=
  e.kind = .delete ∧ ∃ r, s.current e.record.key = some r ∧ r.lease ≠ 0

def ending (s : Store) (lease : Int) (l : Lease) : Edit :=
  l.keys.keys.foldl Edit.remove (Edit.start { s with leases := s.leases.erase lease })

theorem revoke?_eq (s : Store) (lease : Int) :
    s.revoke? lease = (s.leases.get? lease).map fun l => (s.ending lease l).commit := rfl

theorem Sound.erase_lease (h : s.Sound) (lease : Int) :
    ({ s with leases := s.leases.erase lease } : Store).Sound ∧
      s.Advances [] { s with leases := s.leases.erase lease } := by
  have hget : ∀ j, ((s.leases.erase lease).get? j).isSome → (s.leases.get? j).isSome := by
    intro j hj
    rw [SortedMap.get?_erase] at hj
    split at hj
    · cases hj
    · exact hj
  refine ⟨⟨h.revision_pos, h.floor_nonneg, h.floor_le, h.dated, ?_, fun j hj => h.leased j (hget j hj),
    h.nextLease_pos, h.logged, h.ordered⟩, .still h rfl rfl rfl rfl (Int.le_refl _) fun j hj => .inl (hget j hj)⟩
  rintro j k ⟨l, hl, hk⟩
  rw [SortedMap.get?_erase] at hl
  split at hl
  · cases hl
  · exact h.binds j k ⟨l, hl, hk⟩

theorem Sound.stands_ending (h : s.Sound) (lease : Int) (l : Lease) :
    (s.ending lease l).Stands { s with leases := s.leases.erase lease } :=
  .removeAll (fun j hj => ((h.erase_lease lease).1.leased j hj).1) _ (h.erase_lease lease).1.stands_start

theorem leads_revoke? (h : s.Sound) {lease : Int} (hr : s.revoke? lease = some s') :
    s.Leads (fun e => e.kind = .delete ∧ ∃ r, s.current e.record.key = some r ∧ r.lease = lease) s' := by
  rw [revoke?_eq] at hr
  obtain ⟨l, hl, rfl⟩ := Option.map_eq_some_iff.1 hr
  obtain ⟨hs, ha⟩ := h.erase_lease lease
  have hlead := (h.stands_ending lease l).leads hs
    (P := fun e => e.kind = .delete ∧ ∃ r, s.current e.record.key = some r ∧ r.lease = lease) ?_
  · obtain ⟨hs', bs, hb, he⟩ := hlead
    exact ⟨hs', [] ++ bs, ha.trans hb, he⟩
  · intro ev hev
    rcases Edit.mem_events_removeAll _ hev with hev | ⟨hk, hm⟩
    · cases hev
    · exact ⟨hk, h.binds lease _ ⟨l, hl, (SortedMap.mem_keys_iff _ _).1 hm⟩⟩

theorem Sound.lease_ne_zero_of_revoke? (h : s.Sound) {lease : Int} (hr : s.revoke? lease = some s') :
    lease ≠ 0 := by
  rw [revoke?_eq] at hr
  obtain ⟨l, hl, _⟩ := Option.map_eq_some_iff.1 hr
  have := (h.leased lease (by simp [hl])).1
  omega

theorem Leads.current_of_delete (h : s.Leads (fun e => e.kind = .delete) s') {k : Bytes} {r : Record}
    (hr : s'.current k = some r) : s.current k = some r := by
  obtain ⟨_, bs, ha, hb⟩ := h
  rw [← get?_latest, ha.latest, Batch.foldl_applyTo] at hr
  rw [← get?_latest]
  refine Event.get?_of_applyAll_delete (fun e he => ?_) hr
  obtain ⟨b, hm, he⟩ := List.mem_flatMap.1 he
  exact hb b hm e he

def endAll (s : Store) (leases : List Int) : Store := leases.foldl (fun s l => (s.revoke? l).getD s) s

theorem endAll_cons (s : Store) (lease : Int) (leases : List Int) :
    s.endAll (lease :: leases) = ((s.revoke? lease).getD s).endAll leases := rfl

theorem endAll_append (s : Store) (leases leases' : List Int) :
    s.endAll (leases ++ leases') = (s.endAll leases).endAll leases' := List.foldl_append ..

/-- Where leases end, only keys go that are bound to one of them. -/
theorem leads_endAll_bound (leases : List Int) : ∀ {s : Store}, s.Sound →
    s.Leads (fun e => e.kind = .delete ∧ ∃ r, s.current e.record.key = some r ∧ r.lease ≠ 0 ∧ r.lease ∈ leases)
      (s.endAll leases) := by
  induction leases with
  | nil => intro s h; exact .refl h
  | cons lease leases ih =>
    intro s h
    rw [endAll_cons]
    cases hr : s.revoke? lease with
    | none =>
      refine (ih h).mono fun e he => ?_
      obtain ⟨hk, r, hc, h0, hl⟩ := he
      exact ⟨hk, r, hc, h0, List.mem_cons_of_mem _ hl⟩
    | some t =>
      have ht := leads_revoke? h hr
      have h0 := h.lease_ne_zero_of_revoke? hr
      have hdel := ht.mono (Q := fun e => e.kind = .delete) fun e he => he.1
      refine (ht.mono fun e he => ?_).trans ((ih ht.1).mono fun e he => ?_)
      · obtain ⟨hk, r, hc, rfl⟩ := he
        exact ⟨hk, r, hc, h0, List.mem_cons_self⟩
      · obtain ⟨hk, r, hc, h0, hl⟩ := he
        exact ⟨hk, r, hdel.current_of_delete hc, h0, List.mem_cons_of_mem _ hl⟩

theorem leads_endAll (leases : List Int) {s : Store} (h : s.Sound) : s.Leads s.Frees (s.endAll leases) := by
  refine (leads_endAll_bound leases h).mono fun e he => ?_
  obtain ⟨hk, r, hc, h0, -⟩ := he
  exact ⟨hk, r, hc, h0⟩

theorem leads_expire (h : s.Sound) (now : Nat) : s.Leads s.Frees (s.expire now) := leads_endAll _ h

/-! ## The other calls -/

theorem leads_grant {P : Event → Prop} (h : s.Sound) (now : Nat) (ttl : Int) : s.Leads P (s.grant now ttl).2 := by
  have hget : ∀ lease, ((s.grant now ttl).2.leases.get? lease) =
      if s.nextLease = lease then some ⟨now + ttl.toNat * 1000, .empty⟩ else s.leases.get? lease :=
    fun lease => SortedMap.get?_insert ..
  have hnext : (s.grant now ttl).2.nextLease = s.nextLease + 1 := rfl
  have hlive : ∀ lease, ((s.grant now ttl).2.leases.get? lease).isSome →
      (s.leases.get? lease).isSome ∨ s.nextLease = lease := by
    intro lease hl
    rw [hget] at hl
    by_cases he : s.nextLease = lease
    · exact .inr he
    · rw [if_neg he] at hl
      exact .inl hl
  have hpos := h.nextLease_pos
  refine ⟨⟨h.revision_pos, h.floor_nonneg, h.floor_le, h.dated, ?_, ?_, by omega, h.logged, h.ordered⟩, [],
    .still h rfl rfl rfl rfl (by omega) fun lease hl => ?_, by simp⟩
  · rintro lease key ⟨l, hl, hk⟩
    rw [hget] at hl
    split at hl
    · cases hl
      cases hk
    · exact h.binds lease key ⟨l, hl, hk⟩
  · intro lease hl
    rcases hlive lease hl with hl | rfl
    · have := h.leased lease hl
      omega
    · omega
  · rcases hlive lease hl with hl | rfl
    · exact .inl hl
    · exact .inr (Int.le_refl _)

theorem leads_compact {P : Event → Prop} (h : s.Sound) (revision : Int) : s.Leads P (s.compact revision) := by
  by_cases hf : s.floor < revision
  · have hfl := floor_compact s hf
    have hfloor := h.floor_nonneg
    have hle := h.floor_le
    have hlog : (s.compact revision).log = s.log.filter ((s.compact revision).floor ≤ ·.revision) := by
      rw [hfl, compact, if_neg (by omega)]
    have hrev : (s.compact revision).revision = s.revision := by rw [compact, if_neg (by omega)]
    have hleases : (s.compact revision).leases = s.leases := by rw [compact, if_neg (by omega)]
    have hnext : (s.compact revision).nextLease = s.nextLease := by rw [compact, if_neg (by omega)]
    have hdated : (s.compact revision).Dated s.revision := by
      intro k l hk p hp
      rw [get?_compact s hf] at hk
      obtain ⟨l', hl', hk⟩ := Option.bind_eq_some_iff.1 hk
      split at hk
      · cases hk
      · cases hk
        exact h.dated k l' hl' p (History.mem_of_mem_compact hp)
    have hpos := h.revision_pos
    refine ⟨⟨by omega, by omega, by omega, by rw [hrev]; exact hdated, ?_, ?_, ?_, ?_, ?_⟩, [],
      ⟨?_, ?_, ?_, ?_, ?_, ?_, ?_, ?_, ?_⟩, by simp⟩
    · intro lease key hb
      have := h.binds lease key (by unfold Binds at *; rwa [hleases] at hb)
      rwa [current_compact]
    · rw [hleases, hnext]; exact h.leased
    · rw [hnext]; exact h.nextLease_pos
    · intro b hb
      rw [hlog] at hb
      obtain ⟨hb, hbf⟩ := List.mem_filter.1 hb
      have := (h.logged b hb).2
      simp only [decide_eq_true_eq] at hbf
      omega
    · rw [hlog]; exact h.ordered.filter _
    · simp [hrev]
    · intro i b hi; simp at hi
    · omega
    · exact fun r hr _ => asOf_compact s revision hr
    · intro n hn hr
      have hn : n = 0 := by simpa using hn
      subst hn
      rw [List.take_zero, List.foldl_nil, asOf_compact s revision hr]
      simpa using h.asOf_revision
    · rw [latest_compact]; rfl
    · rw [List.append_nil]; exact hlog
    · omega
    · intro lease hl; rw [hleases] at hl; exact .inl hl
  · rw [compact_of_le (by omega)]
    exact .refl h

theorem leads_addFeed {P : Event → Prop} (h : s.Sound) (span : Span) (live : Bool)
    (queue : List (Outcome Batch)) : s.Leads P (s.addFeed span live queue).2 :=
  .still h rfl rfl rfl rfl rfl rfl

theorem leads_watch {P : Event → Prop} (h : s.Sound) (span : Span) (start : Option Int) :
    s.Leads P (s.watch span start).2 := by
  unfold watch
  split
  · exact leads_addFeed h ..
  · split <;> exact leads_addFeed h ..

theorem leads_moveLeader {P : Event → Prop} (h : s.Sound) {member : Nat} (hm : s.moveLeader member = .ok s') :
    s.Leads P s' := by
  unfold moveLeader at hm
  split at hm
  · cases hm
  · split at hm
    · cases hm
    · split at hm
      · cases hm
      · split at hm <;> cases hm
        · exact .refl h
        · exact .still h rfl rfl rfl rfl rfl rfl

theorem leads_delete (h : s.Sound) (span : Span) :
    s.Leads (fun e => span.contains e.record.key = true) ((Edit.start s).delete span).commit := by
  apply Edit.Stands.leads h (.removeAll (fun lease hl => (h.leased lease hl).1) _ h.stands_start)
  intro ev hev
  rcases Edit.mem_events_removeAll _ hev with hev | ⟨_, hm⟩
  · cases hev
  · exact ((s.mem_keysIn span _).1 hm).1

theorem commit?_eq_ok {ops : List Op} (h : s.commit? ops = .ok s') :
    s.missingLease? ops = none ∧ s' = s.commit ops := by
  unfold commit? at h
  split at h
  · cases h
  · rename_i hm
    cases h
    exact ⟨hm, rfl⟩

/-- The leases that end with a call, before anything else that it does. -/
def ends (s : Store) (now : Nat) : Call → List Int
  | .leaseGrant ttl => if ttl ≤ 0 then [] else s.due now
  | .leaseRevoke lease => s.due now ++ [lease]
  | _ => s.due now

/-- A revocation does no more than to end leases. -/
theorem answer_leaseRevoke (s : Store) (now : Nat) (lease : Int) :
    (s.answer now (.leaseRevoke lease)).2 = s.endAll (s.ends now (.leaseRevoke lease)) := by
  simp only [answer, ends, endAll_append]
  show _ = ((s.expire now).revoke? lease).getD (s.expire now)
  cases (s.expire now).revoke? lease <;> rfl

/-- Once the leases are ended, a call writes at its own keys only. -/
theorem leads_answer_of_ends (h : s.Sound) (now : Nat) (c : Call) :
    (s.endAll (s.ends now c)).Leads (fun e => c.Writes e.record.key) (s.answer now c).2 := by
  have hs : (s.expire now).Sound := (leads_expire h now).1
  cases c with
  | range span revision => exact .refl hs
  | memberList => exact .refl hs
  | endpointStatus endpoint => exact .refl hs
  | put key value lease =>
    simp only [answer]
    split
    · exact .refl hs
    · rename_i t ht
      obtain ⟨-, rfl⟩ := commit?_eq_ok ht
      apply (leads_commit hs [.put key value lease]).mono
      intro e he
      obtain ⟨op, ho, hw⟩ := he
      rw [List.mem_singleton.1 ho] at hw
      exact hw
  | deleteRange span => exact leads_delete hs span
  | txn t =>
    simp only [answer]
    split
    · exact .refl hs
    · rename_i t' ht
      obtain ⟨-, rfl⟩ := commit?_eq_ok ht
      apply (leads_commit hs _).mono
      intro e he
      obtain ⟨op, ho, hw⟩ := he
      refine ⟨op, ?_, hw⟩
      split at ho
      · exact .inl ho
      · exact .inr ho
  | watch span start => exact leads_watch hs span start
  | leaseGrant ttl =>
    simp only [answer, ends]
    split
    · exact .refl h
    · exact leads_grant hs now ttl
  | leaseRevoke lease =>
    rw [answer_leaseRevoke]
    exact .refl (leads_endAll _ h).1
  | moveLeader member =>
    simp only [answer]
    split
    · exact .refl hs
    · rename_i t ht
      exact leads_moveLeader hs ht

theorem leads_answer (h : s.Sound) (now : Nat) (c : Call) :
    s.Leads (fun e => c.Writes e.record.key ∨ s.Frees e) (s.answer now c).2 :=
  ((leads_endAll _ h).mono fun _ => .inr).trans ((leads_answer_of_ends h now c).mono fun _ => .inl)

end Store

end Keyspace
