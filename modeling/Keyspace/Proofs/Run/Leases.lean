import Keyspace.Proofs.Run.Move
import Keyspace.Proofs.Store.Binding
import Keyspace.Proofs.Store.Chronicle

/-!
# Leases of a backend

Whatever moves a backend, a lease has the keys whose records name it (`Backend.Reached.bindsAll`), so its end, by a
revocation or because it is due, removes these keys and no others (`leases_kept`). A call looks at the deadlines
before anything else; a grant of no time is refused before that, and leaves leases that are due (`due_lease_kept`).
-/

namespace Keyspace

namespace Store

variable {s t : Store}

/-- What a call can do to a store once its due leases have ended. -/
inductive Does (s : Store) (now : Nat) : Call → Store → Prop
  | still {c : Call} {t : Store} (hh : t.histories = s.histories) (hl : t.leases = s.leases) : Does s now c t
  | commit {c : Call} (ops : List Op) (hm : ∀ op ∈ ops, ∀ l, ¬ op.NamesMissing s l) : Does s now c (s.commit ops)
  | grant (ttl : Int) (ht : 0 < ttl) : Does s now (.leaseGrant ttl) (s.grant now ttl).2
  | ended {lease : Int} {t : Store} (he : s.Ends lease t) : Does s now (.leaseRevoke lease) t

theorem bindsAll_expire (h : s.Sound) (hb : s.BindsAll) (now : Nat) : (s.expire now).BindsAll :=
  (endsInTurn_expire h hb now).bindsAll hb

theorem ends_of_revoke? (h : s.Sound) (hb : s.BindsAll) {lease : Int} (hr : s.revoke? lease = some t) :
    s.Ends lease t := by
  have hl : (s.leases.get? lease).isSome := by
    rw [revoke?_eq] at hr
    obtain ⟨l, hl, _⟩ := Option.map_eq_some_iff.1 hr
    simp [hl]
  obtain ⟨u, hu, he⟩ := ends_revoke? h hb hl
  cases hr.symm.trans hu
  exact he

theorem does_answer (h : s.Sound) (hb : s.BindsAll) (now : Nat) {c : Call}
    (hc : ∀ ttl, c = .leaseGrant ttl → 0 < ttl) : (s.expire now).Does now c (s.answer now c).2 := by
  have txn : ∀ (c : Call) (t : Txn), (s.expire now).Does now c (s.answer now (.txn t)).2 := by
    intro c t
    rw [answer_txn]
    split
    · exact .still rfl rfl
    · rename_i hm
      exact .commit _ (missingLease?_eq_none hm)
  cases c with
  | range span revision => exact .still rfl rfl
  | memberList => exact .still rfl rfl
  | endpointStatus endpoint => exact .still rfl rfl
  | put key value lease =>
    rw [answer_put]
    exact txn _ _
  | deleteRange span =>
    rw [answer_delete]
    exact txn _ _
  | txn t => exact txn _ t
  | watch span start =>
    simp only [answer, watch]
    split
    · exact .still rfl rfl
    · split <;> exact .still rfl rfl
  | leaseGrant ttl =>
    have ht := hc ttl rfl
    simp only [answer]
    rw [if_neg (by omega)]
    exact .grant ttl ht
  | leaseRevoke lease =>
    simp only [answer]
    split
    · exact .still rfl rfl
    · rename_i t ht
      exact .ended (ends_of_revoke? (leads_expire h now).1 (bindsAll_expire h hb now) ht)
  | moveLeader member =>
    simp only [answer]
    split
    · exact .still rfl rfl
    · rename_i t hm
      unfold moveLeader at hm
      split at hm
      · cases hm
      · split at hm
        · cases hm
        · split at hm
          · cases hm
          · split at hm <;> cases hm <;> exact .still rfl rfl

/-- A grant of no time does nothing. -/
theorem answer_leaseGrant_of_le (s : Store) (now : Nat) {ttl : Int} (ht : ttl ≤ 0) :
    s.answer now (.leaseGrant ttl) = (.error (.invalidRequest ("lease ttl must be > 0, got " ++ toString ttl)), s) :=
  if_pos ht

theorem answer_grant (s : Store) (now : Nat) {ttl : Int} (ht : 0 < ttl) :
    s.answer now (.leaseGrant ttl) = (.ok ⟨(s.expire now).nextLease, ttl⟩, ((s.expire now).grant now ttl).2) := by
  simp only [answer]
  rw [if_neg (Int.not_le.2 ht)]
  rfl

theorem id_of_answer_grant {now : Nat} {ttl : Int} {g : LeaseAnswer} (hg : (s.answer now (.leaseGrant ttl)).1 = .ok g) :
    g.id = (s.expire now).nextLease ∧ (s.answer now (.leaseGrant ttl)).2.nextLease = g.id + 1 := by
  by_cases ht : 0 < ttl
  · rw [answer_grant s now ht] at hg ⊢
    cases hg
    exact ⟨rfl, rfl⟩
  · rw [answer_leaseGrant_of_le s now (Int.not_lt.1 ht)] at hg
    cases hg

theorem Sound.get?_nextLease (h : s.Sound) : s.leases.get? s.nextLease = none := by
  rw [← Option.not_isSome_iff_eq_none]
  intro hl
  have := (h.leased _ hl).2
  omega

theorem Does.bindsAll {now : Nat} {c : Call} (h : s.Sound) (hb : s.BindsAll) (hd : s.Does now c t) : t.BindsAll := by
  cases hd with
  | still hh hl => exact hb.of_histories hh hl
  | commit ops hm => exact bindsAll_commit hb hm
  | grant ttl ht => exact bindsAll_grant hb h.get?_nextLease now ttl
  | ended he => exact he.bindsAll hb

theorem bindsAll_answer (h : s.Sound) (hb : s.BindsAll) (now : Nat) (c : Call) : (s.answer now c).2.BindsAll := by
  have hdoes : (∀ ttl, c = .leaseGrant ttl → 0 < ttl) → (s.answer now c).2.BindsAll := fun hc =>
    (does_answer h hb now hc).bindsAll (leads_expire h now).1 (bindsAll_expire h hb now)
  cases c with
  | leaseGrant ttl =>
    by_cases ht : ttl ≤ 0
    · rwa [answer_leaseGrant_of_le s now ht]
    · exact hdoes fun _ he => by cases he; omega
  | _ => exact hdoes nofun

/-! ## Deadlines -/

/-- No lease is due. -/
def NoneDue (s : Store) (now : Nat) : Prop := ∀ lease n, s.deadline? lease = some n → now < n

theorem noneDue_expire (h : s.Sound) (hb : s.BindsAll) (now : Nat) : (s.expire now).NoneDue now := by
  intro lease n hn
  obtain ⟨l, hl, rfl⟩ := Option.map_eq_some_iff.1 hn
  rw [get?_leases_expire h hb, Option.filter_eq_some_iff] at hl
  exact of_decide_eq_true hl.2

theorem deadline?_grant (s : Store) (now : Nat) (ttl lease : Int) :
    (s.grant now ttl).2.deadline? lease =
      if s.nextLease = lease then some (now + ttl.toNat * 1000) else s.deadline? lease := by
  have hg : (s.grant now ttl).2.leases.get? lease =
      if s.nextLease = lease then some ⟨now + ttl.toNat * 1000, .empty⟩ else s.leases.get? lease :=
    SortedMap.get?_insert ..
  rw [deadline?, hg]
  split <;> rfl

theorem Does.noneDue {now : Nat} {c : Call} (hd : s.Does now c t) (hn : s.NoneDue now) : t.NoneDue now := by
  intro lease n hl
  cases hd with
  | still hh hleases => exact hn lease n (by unfold deadline? at hl ⊢; rwa [hleases] at hl)
  | commit ops hm => exact hn lease n (by rwa [deadline?_commit] at hl)
  | grant ttl ht =>
    rw [deadline?_grant] at hl
    split at hl
    · cases hl
      omega
    · exact hn lease n hl
  | ended he =>
    rw [deadline?, he.get?_leases] at hl
    split at hl
    · cases hl
    · exact hn lease n hl

theorem noneDue_answer (h : s.Sound) (hb : s.BindsAll) (now : Nat) {c : Call}
    (hc : ∀ ttl, c = .leaseGrant ttl → 0 < ttl) : (s.answer now c).2.NoneDue now :=
  (does_answer h hb now hc).noneDue (noneDue_expire h hb now)

theorem deadline?_expire {now : Nat} (h : s.Sound) (hb : s.BindsAll) {lease : Int} {due : Nat}
    (hd : s.deadline? lease = some due) (hn : now < due) : (s.expire now).deadline? lease = some due := by
  obtain ⟨l, hl, rfl⟩ := Option.map_eq_some_iff.1 hd
  rw [deadline?, get?_leases_expire h hb, hl]
  simp [Option.filter, hn]

theorem Does.deadline? {now : Nat} {c : Call} (h : s.Sound) (hd : s.Does now c t) {lease : Int} {due : Nat}
    (hl : s.deadline? lease = some due) (hc : c ≠ .leaseRevoke lease) : t.deadline? lease = some due := by
  cases hd with
  | still hh hleases => rwa [Store.deadline?, hleases]
  | commit ops hm => rwa [deadline?_commit]
  | grant ttl ht =>
    have hlive : (s.leases.get? lease).isSome := by rw [← Edit.isSome_deadline?, hl]; rfl
    have hlt := (h.leased lease hlive).2
    rwa [deadline?_grant, if_neg (by omega)]
  | ended he =>
    rename_i other
    have hne : other ≠ lease := fun he => hc (he ▸ rfl)
    rwa [Store.deadline?, he.get?_leases, if_neg hne]

/-- A lease that is not due stays, until its own end is asked for. -/
theorem deadline?_answer {now : Nat} (h : s.Sound) (hb : s.BindsAll) {lease : Int} {due : Nat}
    (hd : s.deadline? lease = some due) (hn : now < due) {c : Call} (hc : c ≠ .leaseRevoke lease) :
    (s.answer now c).2.deadline? lease = some due := by
  have hdoes : (∀ ttl, c = .leaseGrant ttl → 0 < ttl) → (s.answer now c).2.deadline? lease = some due := fun ht =>
    (does_answer h hb now ht).deadline? (leads_expire h now).1 (deadline?_expire h hb hd hn) hc
  cases c with
  | leaseGrant ttl =>
    by_cases ht : ttl ≤ 0
    · rwa [answer_leaseGrant_of_le s now ht]
    · exact hdoes fun _ he => by cases he; omega
  | _ => exact hdoes nofun

end Store

namespace Backend

variable {b : Backend}

theorem bindsAll_move (h : b.store.Sound) (hb : b.store.BindsAll) (now : Nat) (m : Move) :
    (b.move now m).store.BindsAll := by
  cases m with
  | call c =>
    rcases b.answer_cases now c with ⟨-, hs⟩ | ⟨-, hs⟩
    · exact hs ▸ hb
    · exact hs ▸ Store.bindsAll_answer h hb now c
  | compact revision =>
    obtain ⟨_, _, _, hs⟩ := b.store.compact_eq revision
    exact hb.of_eq (t := b.store.compact revision) (fun k => b.store.current_compact revision k) (by rw [hs])
  | countLeases => exact Store.bindsAll_expire h hb now
  | takeNext feed =>
    obtain ⟨feeds, hs, _⟩ := b.store.onlyFeeds_takeNext feed
    exact hb.of_histories (t := (b.store.takeNext feed).2) (by rw [hs]) (by rw [hs])
  | fail rule => exact hb
  | clearFaults => exact hb
  | closeFeed feed => exact hb.of_histories rfl rfl
  | setResponsive member responsive => exact hb.of_histories rfl rfl
  | setLearner member learner => exact hb.of_histories rfl rfl

theorem Reached.bindsAll (h : b.Reached) : b.store.BindsAll := by
  induction h with
  | ofMembers names => exact nofun
  | move h now m ih => exact bindsAll_move h.sound ih now m

theorem deadline?_move (h : b.store.Sound) (hb : b.store.BindsAll) {lease : Int} {now due : Nat}
    (hd : b.store.deadline? lease = some due) (hn : now < due) {m : Move} (hm : m ≠ .call (.leaseRevoke lease)) :
    (b.move now m).store.deadline? lease = some due := by
  cases m with
  | call c =>
    rcases b.answer_cases now c with ⟨-, hs⟩ | ⟨-, hs⟩
    · exact hs ▸ hd
    · exact hs ▸ Store.deadline?_answer h hb hd hn fun hc => hm (hc ▸ rfl)
  | compact revision =>
    obtain ⟨_, _, _, hs⟩ := b.store.compact_eq revision
    have hs : (b.move now (.compact revision)).store = _ := hs
    rw [hs]
    exact hd
  | countLeases => exact Store.deadline?_expire h hb hd hn
  | takeNext feed =>
    obtain ⟨feeds, hs, _⟩ := b.store.onlyFeeds_takeNext feed
    have hs : (b.move now (.takeNext feed)).store = { b.store with feeds } := hs
    rw [hs]
    exact hd
  | _ => exact hd

theorem id_of_grant {now : Nat} {ttl : Int} {g : LeaseAnswer} (hg : (b.answer now (.leaseGrant ttl)).1 = .ok g) :
    g.id = (b.store.expire now).nextLease ∧ (b.answer now (.leaseGrant ttl)).2.store.nextLease = g.id + 1 := by
  obtain ⟨hg, hs⟩ := store_answer_of_ok hg
  rw [hs]
  exact Store.id_of_answer_grant hg

/-- An id that a grant gives is below all that are given later. -/
theorem lt_of_grant (h : b.store.Sound) {now now' : Nat} {ttl ttl' : Int} {g g' : LeaseAnswer} (l : List (Nat × Move))
    (hg : (b.answer now (.leaseGrant ttl)).1 = .ok g)
    (hg' : (((b.answer now (.leaseGrant ttl)).2.moves l).answer now' (.leaseGrant ttl')).1 = .ok g') :
    g.id < g'.id := by
  have hone : (b.answer now (.leaseGrant ttl)).2.store.Sound := (leads_move h now (.call (.leaseGrant ttl))).1
  have hall := leads_moves l hone
  have hmoves := hall.nextLease_le
  have hexpire := (Store.leads_expire hall.1 now').nextLease_le
  have hnext := (id_of_grant hg).2
  have hid := (id_of_grant hg').1
  omega

/-! ## What a backend keeps -/

/-- What there is to say of the leases of a backend, and of calls at a time. -/
structure KeepsLeases (b : Backend) (now : Nat) : Prop where
  /-- A lease has the keys whose records name it. -/
  keys : ∀ lease l, b.store.leases.get? lease = some l → l.keys.keys = b.store.bound lease
  live : ∀ k r, b.store.current k = some r → r.lease ≠ 0 → (b.store.leases.get? r.lease).isSome
  expires : b.store.EndsInTurn (b.store.due now) (b.store.expire now)
  remain : ∀ lease, (b.store.expire now).leases.get? lease =
    (b.store.leases.get? lease).filter fun l => now < l.deadline
  revokes : meetFault .leaseRevoke b.faults = none → ∀ lease l, b.store.leases.get? lease = some l → now < l.deadline →
    (b.answer now (.leaseRevoke lease)).1 = .ok () ∧
      (b.store.expire now).Ends lease (b.answer now (.leaseRevoke lease)).2.store ∧
      (b.store.expire now).bound lease = b.store.bound lease
  /-- Keys that are bound neither to the lease nor to one that is due stay as they are. -/
  untouched : ∀ lease k, (∀ r, b.store.current k = some r → r.lease ≠ lease ∧ r.lease ∉ b.store.due now) →
    (b.answer now (.leaseRevoke lease)).2.store.histories.get? k = b.store.histories.get? k
  refuses : meetFault .leaseRevoke b.faults = none →
    ∀ lease, (∀ l, b.store.leases.get? lease = some l → l.deadline ≤ now) →
      (b.answer now (.leaseRevoke lease)).1 = .error (.leaseNotFound lease) ∧
        (b.answer now (.leaseRevoke lease)).2.store = b.store.expire now
  /-- No id is given twice, and a lease that is gone stays gone. -/
  grants : ∀ ttl (g : LeaseAnswer), (b.answer now (.leaseGrant ttl)).1 = .ok g → ∀ l now' ttl' (g' : LeaseAnswer),
    (((b.answer now (.leaseGrant ttl)).2.moves l).answer now' (.leaseGrant ttl')).1 = .ok g' → g.id < g'.id
  gone : ∀ lease < b.store.nextLease, b.store.leases.get? lease = none →
    ∀ l, (b.moves l).store.leases.get? lease = none
  /-- After a call no lease is due, unless it was a grant of no time. -/
  noneDue : ∀ c : Call, meetFault c.name b.faults = none →
    ((b.answer now c).2.store.NoneDue now ↔ (∀ ttl, c = .leaseGrant ttl → 0 < ttl) ∨ b.store.NoneDue now)

theorem noneDue_answer_iff (h : b.store.Sound) (hb : b.store.BindsAll) (now : Nat) {c : Call}
    (hf : meetFault c.name b.faults = none) :
    (b.answer now c).2.store.NoneDue now ↔ (∀ ttl, c = .leaseGrant ttl → 0 < ttl) ∨ b.store.NoneDue now := by
  rw [(answer_of_unfaulted now hf).2]
  by_cases hc : ∀ ttl, c = .leaseGrant ttl → 0 < ttl
  · exact ⟨fun _ => .inl hc, fun _ => Store.noneDue_answer h hb now hc⟩
  · obtain ⟨ttl, rfl, ht⟩ : ∃ ttl, c = .leaseGrant ttl ∧ ttl ≤ 0 := by
      cases c with
      | leaseGrant ttl => exact ⟨ttl, rfl, Int.not_lt.1 fun ht => hc fun _ he => by cases he; exact ht⟩
      | _ => exact absurd nofun hc
    rw [Store.answer_leaseGrant_of_le _ _ ht]
    exact ⟨.inr, fun hd => hd.resolve_left hc⟩

theorem answer_leaseRevoke_of_live (h : b.store.Sound) (hb : b.store.BindsAll) {now : Nat} {lease : Int} {l : Lease}
    (hf : meetFault .leaseRevoke b.faults = none) (hl : b.store.leases.get? lease = some l) (hd : now < l.deadline) :
    (b.answer now (.leaseRevoke lease)).1 = .ok () ∧
      (b.store.expire now).Ends lease (b.answer now (.leaseRevoke lease)).2.store := by
  obtain ⟨hr, hs⟩ := answer_of_unfaulted (b := b) (c := .leaseRevoke lease) now hf
  have hlive : ((b.store.expire now).leases.get? lease).isSome := by
    rw [Store.get?_leases_expire h hb, hl]
    simp [Option.filter, hd]
  obtain ⟨t, ht, he⟩ := Store.ends_revoke? (Store.leads_expire h now).1 (Store.bindsAll_expire h hb now) hlive
  rw [hr, hs]
  simp only [Store.answer, ht]
  exact ⟨trivial, he⟩

theorem answer_leaseRevoke_of_gone (h : b.store.Sound) (hb : b.store.BindsAll) {now : Nat} {lease : Int}
    (hf : meetFault .leaseRevoke b.faults = none)
    (hl : ∀ l, b.store.leases.get? lease = some l → l.deadline ≤ now) :
    (b.answer now (.leaseRevoke lease)).1 = .error (.leaseNotFound lease) ∧
      (b.answer now (.leaseRevoke lease)).2.store = b.store.expire now := by
  obtain ⟨hr, hs⟩ := answer_of_unfaulted (b := b) (c := .leaseRevoke lease) now hf
  have hgone : (b.store.expire now).leases.get? lease = none := by
    rw [Store.get?_leases_expire h hb, Option.filter_eq_none_iff]
    intro l hlease
    have := hl l hlease
    simp only [decide_eq_true_eq]
    omega
  have hnone : (b.store.expire now).revoke? lease = none := by rw [Store.revoke?_eq, hgone]; rfl
  rw [hr, hs]
  simp only [Store.answer, hnone]
  exact ⟨trivial, trivial⟩

theorem histories_answer_leaseRevoke (h : b.store.Sound) (hb : b.store.BindsAll) {now : Nat} {lease : Int} {k : Bytes}
    (hk : ∀ r, b.store.current k = some r → r.lease ≠ lease ∧ r.lease ∉ b.store.due now) :
    (b.answer now (.leaseRevoke lease)).2.store.histories.get? k = b.store.histories.get? k := by
  have hexpire := Store.endsInTurn_expire h hb now
  have hkeep := hexpire.histories fun r hr => (hk r hr).2
  rcases b.answer_cases now (.leaseRevoke lease) with ⟨-, hs⟩ | ⟨-, hs⟩
  · rw [hs]
  · rw [hs, ← hkeep]
    simp only [Store.answer]
    cases hr : (b.store.expire now).revoke? lease with
    | none => rfl
    | some t =>
      have he := Store.ends_of_revoke? (Store.leads_expire h now).1 (Store.bindsAll_expire h hb now) hr
      have hfree : k ∉ (b.store.expire now).bound lease := fun hm => by
        obtain ⟨r, hr, hl⟩ := ((b.store.expire now).mem_bound lease).1 hm
        rw [hexpire.current, Option.filter_eq_some_iff] at hr
        exact (hk r hr.1).1 hl
      show t.histories.get? k = _
      rw [he.histories, if_neg hfree]

/-- Leases and keys agree, and a lease takes along what is bound to it, and that alone. -/
theorem leases_kept (h : b.Reached) (now : Nat) : b.KeepsLeases now where
  keys lease l hl := by
    have := (h.sound.leased lease (by simp [hl])).1
    exact Store.keys_eq_bound h.sound.binds h.bindsAll (by omega) hl
  live k r hr h0 := by
    obtain ⟨l, hl, _⟩ := h.bindsAll k r hr h0
    simp [hl]
  expires := Store.endsInTurn_expire h.sound h.bindsAll now
  remain := Store.get?_leases_expire h.sound h.bindsAll now
  revokes hf lease l hl hd := by
    obtain ⟨hr, he⟩ := answer_leaseRevoke_of_live h.sound h.bindsAll hf hl hd
    refine ⟨hr, he, (Store.endsInTurn_expire h.sound h.bindsAll now).bound fun hm => ?_⟩
    obtain ⟨l', hl', hd'⟩ := b.store.mem_due.1 hm
    cases hl.symm.trans hl'
    omega
  untouched lease k := histories_answer_leaseRevoke h.sound h.bindsAll
  refuses hf lease := answer_leaseRevoke_of_gone h.sound h.bindsAll hf
  grants ttl g hg l now' ttl' g' := lt_of_grant h.sound l hg
  gone lease hn hl l := ((leads_moves l h.sound).gone hl hn).1
  noneDue c := noneDue_answer_iff h.sound h.bindsAll now

/-- A key is bound to a lease and then to another; the first ends when it is due, and the other takes the key along. -/
theorem leases_kept_rebound :
    let b := (ofMembers ["a"]).moves [(0, .call (.leaseGrant 1)), (0, .call (.put [1] [10] (some 1))),
      (0, .call (.leaseGrant 5)), (0, .call (.put [1] [11] (some 2)))]
    b.Reached ∧ b.KeepsLeases 1000 ∧ b.store.due 1000 = [1] ∧ b.store.bound 1 = [] ∧ b.store.bound 2 = [[1]] ∧
      (b.answer 1000 (.leaseRevoke 2)).2.store.log =
        b.store.log ++ [⟨4, [⟨.delete, ⟨[1], [], 0, 4, 0, 0⟩⟩]⟩] := by
  intro b
  have h : b.Reached := moves_inv (fun now m hb => .move hb now m) _ (.ofMembers _)
  exact ⟨h, leases_kept h 1000, by decide +kernel, by decide +kernel, by decide +kernel, by decide +kernel⟩

/-- A grant of no time is refused before deadlines are looked at, so a lease that is due may outlive it. -/
theorem due_lease_kept :
    let b := (ofMembers ["a"]).moves [(0, .call (.leaseGrant 1)), (0, .call (.put [1] [10] (some 1)))]
    b.Reached ∧ meetFault .leaseGrant b.faults = none ∧ ¬ (b.answer 1000 (.leaseGrant 0)).2.store.NoneDue 1000 := by
  intro b
  refine ⟨moves_inv (fun now m hb => .move hb now m) _ (.ofMembers _), by decide +kernel, fun h => ?_⟩
  have hlive : (b.answer 1000 (.leaseGrant 0)).2.store.deadline? 1 = some 1000 := by decide +kernel
  exact absurd (h 1 1000 hlive) (Nat.lt_irrefl 1000)

end Backend

end Keyspace
