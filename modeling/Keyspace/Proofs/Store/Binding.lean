import Keyspace.Proofs.Store.Ending
import Keyspace.Proofs.Store.Transaction

/-!
# Leases and their keys

Every write restores that each key is among the keys of the lease that its record names (`BindsAll`), as it
restores that no lease has others (`BindsSoundly`). So the keys of a lease are those that a look at the latest view
finds (`keys_eq_bound`), and its end takes along these and no others, at one revision (`Ends`).
-/

namespace Keyspace

namespace Store

/-- Every key is among the keys of the lease that its record names. -/
def BindsAll (s : Store) : Prop := ∀ k r, s.current k = some r → r.lease ≠ 0 → s.Binds r.lease k

/-- When a lease is due, if it is there. -/
def deadline? (s : Store) (lease : Int) : Option Nat := (s.leases.get? lease).map (·.deadline)

/-- The keys whose records name a lease, in key order. -/
def bound (s : Store) (lease : Int) : List Bytes := (s.latest.filter fun _ r => r.lease = lease).keys

variable {s t : Store}

theorem BindsAll.of_eq (h : s.BindsAll) (hc : ∀ k, t.current k = s.current k) (hl : t.leases = s.leases) :
    t.BindsAll := by
  intro k r hr h0
  rw [hc] at hr
  unfold Binds
  rw [hl]
  exact h k r hr h0

theorem BindsAll.of_histories (h : s.BindsAll) (hh : t.histories = s.histories) (hl : t.leases = s.leases) :
    t.BindsAll :=
  h.of_eq (fun k => by unfold current; rw [hh]) hl

theorem mem_bound (s : Store) (lease : Int) {k : Bytes} : k ∈ s.bound lease ↔ ∃ r, s.current k = some r ∧ r.lease = lease := by
  rw [bound, SortedMap.mem_keys_iff, SortedMap.get?_filter, get?_latest, Option.isSome_iff_exists]
  simp only [Option.filter_eq_some_iff, decide_eq_true_eq]

/-- A lease has the keys whose records name it. -/
theorem keys_eq_bound (hs : s.BindsSoundly) (hb : s.BindsAll) {lease : Int} (h0 : lease ≠ 0) {l : Lease}
    (hl : s.leases.get? lease = some l) : l.keys.keys = s.bound lease := by
  refine SortedMap.keys_eq_of_mem_iff (SortedMap.keys_pairwise _) (SortedMap.keys_pairwise _) fun k => ?_
  refine Iff.trans ?_ (s.mem_bound lease).symm
  rw [SortedMap.mem_keys_iff]
  constructor
  · exact fun hk => hs lease k ⟨l, hl, hk⟩
  · rintro ⟨r, hr, rfl⟩
    obtain ⟨l', hl', hk⟩ := hb k r hr h0
    rw [hl] at hl'
    cases hl'
    exact hk

end Store

/-! ## Edits -/

namespace Edit

theorem binds_bind_of_binds {s : Store} {lease j : Int} {key k : Bytes} (h : s.Binds j k) :
    (bind s lease key).Binds j k := by
  obtain ⟨l, hl, hk⟩ := h
  refine ⟨if lease = j then { l with keys := SortedSet.insert l.keys key } else l, ?_, ?_⟩
  · rw [get?_leases_bind, hl]
    rfl
  · split
    · show (SortedMap.get? (SortedMap.insert l.keys key ()) k).isSome
      rw [SortedMap.get?_insert]
      split
      · rfl
      · exact hk
    · exact hk

theorem binds_bind_self {s : Store} {lease : Int} (h : (s.leases.get? lease).isSome) (key : Bytes) :
    (bind s lease key).Binds lease key := by
  obtain ⟨l, hl⟩ := Option.isSome_iff_exists.1 h
  refine ⟨{ l with keys := SortedSet.insert l.keys key }, ?_, ?_⟩
  · rw [get?_leases_bind, hl]
    simp
  · show (SortedMap.get? (SortedMap.insert l.keys key ()) key).isSome
    rw [SortedMap.get?_insert, if_pos rfl]
    rfl

theorem binds_released_of_ne {s : Store} {keep j : Int} {key k : Bytes} (h : s.Binds j k) (hk : key ≠ k) :
    (released s key keep).Binds j k := by
  unfold released
  split
  · split
    · exact binds_unbind.2 ⟨h, fun he => hk he.2⟩
    · exact h
  · exact h

theorem binds_rebound_of_ne {s : Store} {lease j : Int} {key k : Bytes} (h : s.Binds j k) (hk : key ≠ k) :
    (rebound s key lease).Binds j k := by
  unfold rebound
  split
  · exact binds_bind_of_binds (binds_released_of_ne h hk)
  · exact binds_released_of_ne h hk

theorem binds_rebound_self {s : Store} {lease : Int} (h0 : lease ≠ 0) (h : (s.leases.get? lease).isSome)
    (key : Bytes) : (rebound s key lease).Binds lease key := by
  unfold rebound
  rw [if_pos h0]
  exact binds_bind_self (by rwa [isSome_leases_released]) key

section
variable {e : Edit}

theorem bindsAll_write (h : e.store.BindsAll) {leases : SortedMap Int Lease} {key : Bytes} {record : Option Record}
    (others : ∀ j k, key ≠ k → e.store.Binds j k → (e.write leases key record).store.Binds j k)
    (self : ∀ r, record = some r → r.lease ≠ 0 → (e.write leases key record).store.Binds r.lease key) :
    (e.write leases key record).store.BindsAll := by
  intro k r hr h0
  rw [current_write] at hr
  by_cases hk : key = k
  · rw [if_pos hk] at hr
    exact hk ▸ self r hr h0
  · rw [if_neg hk] at hr
    exact others _ k hk (h k r hr h0)

theorem bindsAll_put (h : e.store.BindsAll) (key value : Bytes) {lease : Option Int}
    (hl : ∀ l, lease = some l → l ≠ 0 → (e.store.leases.get? l).isSome) : (e.put key value lease).store.BindsAll := by
  rw [put_eq_write]
  refine bindsAll_write h (fun j k hk hb => binds_rebound_of_ne hb hk) fun r hr h0 => ?_
  cases hr
  cases lease with
  | none => exact absurd rfl h0
  | some l => exact binds_rebound_self h0 (hl l rfl h0) key

theorem bindsAll_remove (h : e.store.BindsAll) (key : Bytes) : (e.remove key).store.BindsAll := by
  cases hc : e.store.current key with
  | none => rwa [remove_of_absent hc]
  | some r =>
    rw [remove_eq_write hc]
    exact bindsAll_write h (fun j k hk hb => binds_released_of_ne hb hk) nofun

theorem bindsAll_removeAll (keys : List Bytes) : ∀ {e : Edit}, e.store.BindsAll →
    (keys.foldl remove e).store.BindsAll := by
  induction keys with
  | nil => exact fun h => h
  | cons key keys ih => exact fun h => ih (bindsAll_remove h key)

end

/-! ### Deadlines -/

@[simp] theorem deadline?_unbind (s : Store) (lease : Int) (key : Bytes) (j : Int) :
    (unbind s lease key).deadline? j = s.deadline? j := by
  unfold Store.deadline?
  rw [get?_leases_unbind]
  cases s.leases.get? j with
  | none => rfl
  | some l => by_cases hj : lease = j <;> simp [hj]

@[simp] theorem deadline?_bind (s : Store) (lease : Int) (key : Bytes) (j : Int) :
    (bind s lease key).deadline? j = s.deadline? j := by
  unfold Store.deadline?
  rw [get?_leases_bind]
  cases s.leases.get? j with
  | none => rfl
  | some l => by_cases hj : lease = j <;> simp [hj]

@[simp] theorem deadline?_released (s : Store) (key : Bytes) (keep j : Int) :
    (released s key keep).deadline? j = s.deadline? j := by
  unfold released
  split
  · split
    · exact deadline?_unbind ..
    · rfl
  · rfl

@[simp] theorem deadline?_rebound (s : Store) (key : Bytes) (lease j : Int) :
    (rebound s key lease).deadline? j = s.deadline? j := by
  unfold rebound
  split <;> simp

theorem deadline?_put (e : Edit) (key value : Bytes) (lease : Option Int) (j : Int) :
    (e.put key value lease).store.deadline? j = e.store.deadline? j := by
  rw [put_eq_write]
  exact deadline?_rebound ..

theorem deadline?_remove (e : Edit) (key : Bytes) (j : Int) :
    (e.remove key).store.deadline? j = e.store.deadline? j := by
  cases hc : e.store.current key with
  | none => rw [remove_of_absent hc]
  | some r =>
    rw [remove_eq_write hc]
    exact deadline?_released ..

theorem deadline?_removeAll (keys : List Bytes) (j : Int) : ∀ e : Edit,
    (keys.foldl remove e).store.deadline? j = e.store.deadline? j := by
  induction keys with
  | nil => exact fun _ => rfl
  | cons key keys ih => exact fun e => (ih _).trans (deadline?_remove e key j)

theorem deadline?_apply (e : Edit) (op : Op) (j : Int) : (e.apply op).store.deadline? j = e.store.deadline? j := by
  cases op with
  | put key value lease => exact deadline?_put ..
  | delete span => exact deadline?_removeAll ..

theorem deadline?_applyAll (ops : List Op) (j : Int) : ∀ e : Edit,
    (e.applyAll ops).store.deadline? j = e.store.deadline? j := by
  induction ops with
  | nil => exact fun _ => rfl
  | cons op ops ih => exact fun e => (ih (e.apply op)).trans (deadline?_apply e op j)

theorem isSome_deadline? (s : Store) (j : Int) : (s.deadline? j).isSome = (s.leases.get? j).isSome :=
  Option.isSome_map

theorem bindsAll_applyAll (ops : List Op) : ∀ {e : Edit}, e.store.BindsAll →
    (∀ op ∈ ops, ∀ l, ¬ op.NamesMissing e.store l) → (e.applyAll ops).store.BindsAll := by
  induction ops with
  | nil => exact fun h _ => h
  | cons op ops ih =>
    intro e h hm
    have happly : (e.apply op).store.BindsAll := by
      cases op with
      | delete span => exact bindsAll_removeAll _ h
      | put key value lease =>
        refine bindsAll_put h key value fun l hl h0 => ?_
        cases hg : e.store.leases.get? l with
        | some l => rfl
        | none => exact absurd ⟨h0, hg, key, value, hl ▸ rfl⟩ (hm _ List.mem_cons_self l)
    refine ih happly fun o ho l hn => hm o (List.mem_cons_of_mem _ ho) l ⟨hn.1, ?_, hn.2.2⟩
    -- the operation took no lease away
    have hsome := isSome_deadline? (e.apply op).store l
    rw [deadline?_apply, isSome_deadline?, hn.2.1] at hsome
    simpa using hsome

end Edit

namespace Store

variable {s t : Store}

theorem bindsAll_commit (h : s.BindsAll) {ops : List Op} (hm : ∀ op ∈ ops, ∀ l, ¬ op.NamesMissing s l) :
    (s.commit ops).BindsAll :=
  (Edit.bindsAll_applyAll ops (e := Edit.start s) h hm).of_histories (Edit.histories_commit _) (Edit.leases_commit _)

theorem deadline?_commit (s : Store) (ops : List Op) (j : Int) : (s.commit ops).deadline? j = s.deadline? j := by
  unfold commit deadline?
  rw [Edit.leases_commit]
  exact Edit.deadline?_applyAll ops j (Edit.start s)

theorem bindsAll_grant (h : s.BindsAll) (hn : s.leases.get? s.nextLease = none) (now : Nat) (ttl : Int) :
    (s.grant now ttl).2.BindsAll := by
  intro k r hr h0
  obtain ⟨l, hl, hk⟩ := h k r hr h0
  refine ⟨l, ?_, hk⟩
  show (s.leases.insert _ _).get? _ = _
  rw [SortedMap.get?_insert, if_neg fun he => ?_, hl]
  rw [he, hl] at hn
  cases hn

end Store

/-! ## The end of a lease -/

namespace Edit

/-- Removing keys of a lease that is not there touches no lease. -/
theorem leases_removeAll (lease : Int) (keys : List Bytes) : ∀ {e : Edit}, e.store.leases.get? lease = none →
    (∀ k ∈ keys, ∀ r, e.store.current k = some r → r.lease = lease) →
      (keys.foldl remove e).store.leases = e.store.leases := by
  induction keys with
  | nil => exact fun _ _ => rfl
  | cons key keys ih =>
    intro e hl h
    have hone : (e.remove key).store.leases = e.store.leases := by
      cases hc : e.store.current key with
      | none => rw [remove_of_absent hc]
      | some r =>
        have hr := h key List.mem_cons_self r hc
        rw [remove_eq_write hc]
        show (released e.store key 0).leases = _
        unfold released
        rw [hc]
        simp only [hr, unbind, hl]
        split <;> rfl
    rw [List.foldl_cons, ih (by rw [hone, hl]) ?_, hone]
    intro k hk r hr
    rw [current_remove] at hr
    split at hr
    · cases hr
    · exact h k (List.mem_cons_of_mem _ hk) r hr

theorem get?_histories_removeAll (keys : List Bytes) (k : Bytes) : ∀ {e : Edit}, keys.Nodup →
    (∀ j ∈ keys, (e.store.current j).isSome) → (keys.foldl remove e).store.histories.get? k =
      if k ∈ keys then some (⟨e.revision, none⟩ :: (e.store.histories.get? k).getD [])
      else e.store.histories.get? k := by
  induction keys with
  | nil => exact fun _ _ => rfl
  | cons key keys ih =>
    intro e hn h
    obtain ⟨hkey, hn⟩ := List.nodup_cons.1 hn
    obtain ⟨r, hr⟩ := Option.isSome_iff_exists.1 (h key List.mem_cons_self)
    have hrest : ∀ j ∈ keys, ((e.remove key).store.current j).isSome := by
      intro j hj
      have hne : key ≠ j := fun he => hkey (he ▸ hj)
      rw [current_remove, if_neg hne]
      exact h j (List.mem_cons_of_mem _ hj)
    rw [List.foldl_cons, ih hn hrest, revision_remove, remove_eq_write hr, get?_histories_write]
    by_cases hk : key = k
    · subst hk
      simp [hkey]
    · simp [hk, Ne.symm hk]

end Edit

namespace Store

/-- What is left of a store when a lease has ended. -/
structure Ends (s : Store) (lease : Int) (t : Store) : Prop where
  leases : t.leases = s.leases.erase lease
  latest : t.latest = s.latest.filter fun _ r => r.lease ≠ lease
  revision : t.revision = if s.bound lease = [] then s.revision else s.revision + 1
  log : t.log = s.log ++
    if s.bound lease = [] then []
    else [⟨s.revision + 1, (s.bound lease).map fun k => ⟨.delete, ⟨k, [], 0, s.revision + 1, 0, 0⟩⟩⟩]
  histories : ∀ k, t.histories.get? k =
    if k ∈ s.bound lease then some (⟨s.revision + 1, none⟩ :: (s.histories.get? k).getD []) else s.histories.get? k

variable {s t : Store} {lease : Int}

theorem isSome_of_mem_bound {k : Bytes} (h : k ∈ s.bound lease) : (s.current k).isSome := by
  obtain ⟨r, hr, _⟩ := (s.mem_bound lease).1 h
  rw [hr]
  rfl

/-- The end of a lease removes the keys whose records name it. -/
theorem ends_commit {e : Edit} (he : e.Stands { s with leases := s.leases.erase lease })
    (heq : e = (s.bound lease).foldl Edit.remove (Edit.start { s with leases := s.leases.erase lease })) :
    s.Ends lease e.commit := by
  have hn : (s.bound lease).Nodup := SortedMap.keys_nodup _
  have hsome : ∀ k ∈ s.bound lease, (s.current k).isSome := fun k => isSome_of_mem_bound
  have hrev : e.revision = s.revision + 1 := he.revision
  have hevents : e.events = (s.bound lease).map fun k => ⟨.delete, ⟨k, [], 0, s.revision + 1, 0, 0⟩⟩ := by
    rw [heq, Edit.events_removeAll _ hn hsome]
    rfl
  have hnil : e.events = [] ↔ s.bound lease = [] := by rw [hevents, List.map_eq_nil_iff]
  -- The lease is gone before its keys are, so no removal has a lease to take a key from.
  have hleases : e.store.leases = s.leases.erase lease := by
    rw [heq, Edit.leases_removeAll lease]
    · rfl
    · exact (SortedMap.get?_erase ..).trans (if_pos rfl)
    · intro k hk r hr
      obtain ⟨r', hr', hlease⟩ := (s.mem_bound lease).1 hk
      cases hr'.symm.trans hr
      exact hlease
  have hcurrent : ∀ k, e.store.current k = (s.current k).filter (·.lease ≠ lease) := by
    intro k
    rw [heq, Edit.current_removeAll]
    show (if k ∈ s.bound lease then none else s.current k) = _
    simp only [mem_bound]
    cases s.current k with
    | none => simp
    | some r => by_cases hr : r.lease = lease <;> simp [Option.filter, hr]
  refine ⟨by rw [Edit.leases_commit, hleases], ?_, ?_, ?_, fun k => ?_⟩
  · refine SortedMap.ext_get? fun k => ?_
    rw [SortedMap.get?_filter, get?_latest, get?_latest, current, Edit.histories_commit]
    exact hcurrent k
  · rw [Edit.revision_commit, he.frame, hrev]
    simp only [hnil]
  · rw [Edit.log_commit, he.frame, hrev, hevents]
    simp only [List.map_eq_nil_iff]
  · rw [Edit.histories_commit, heq]
    exact Edit.get?_histories_removeAll _ k hn hsome

theorem ends_revoke? (h : s.Sound) (hb : s.BindsAll) (hl : (s.leases.get? lease).isSome) :
    ∃ t, s.revoke? lease = some t ∧ s.Ends lease t := by
  obtain ⟨l, hl⟩ := Option.isSome_iff_exists.1 hl
  have hpos := (h.leased lease (by simp [hl])).1
  refine ⟨(s.ending lease l).commit, by rw [revoke?_eq, hl]; rfl, ends_commit (h.stands_ending lease l) ?_⟩
  rw [ending, keys_eq_bound h.binds hb (by omega) hl]

/-- A store in which leases ended one after the other. -/
def EndsInTurn (s : Store) : List Int → Store → Prop
  | [], t => t = s
  | lease :: leases, t => ∃ u, s.Ends lease u ∧ u.EndsInTurn leases t

theorem Ends.get?_leases (h : s.Ends lease t) (j : Int) :
    t.leases.get? j = if lease = j then none else s.leases.get? j := by
  rw [h.leases, SortedMap.get?_erase]

theorem Ends.current (h : s.Ends lease t) (k : Bytes) : t.current k = (s.current k).filter (·.lease ≠ lease) := by
  rw [← get?_latest, h.latest, SortedMap.get?_filter, get?_latest]

theorem Ends.bindsAll (h : s.Ends lease t) (hb : s.BindsAll) : t.BindsAll := by
  intro k r hr h0
  rw [h.current, Option.filter_eq_some_iff] at hr
  obtain ⟨hr, hne⟩ := hr
  obtain ⟨l, hl, hk⟩ := hb k r hr h0
  refine ⟨l, ?_, hk⟩
  rw [h.get?_leases, if_neg (Ne.symm (of_decide_eq_true hne)), hl]

theorem endsInTurn_endAll (leases : List Int) : ∀ {s : Store}, s.Sound → s.BindsAll → leases.Nodup →
    (∀ lease ∈ leases, (s.leases.get? lease).isSome) → s.EndsInTurn leases (s.endAll leases) := by
  induction leases with
  | nil => exact fun _ _ _ _ => rfl
  | cons lease leases ih =>
    intro s h hb hn hl
    obtain ⟨hlease, hn⟩ := List.nodup_cons.1 hn
    obtain ⟨u, hu, hends⟩ := ends_revoke? h hb (hl lease List.mem_cons_self)
    refine ⟨u, hends, ?_⟩
    rw [endAll_cons, hu]
    refine ih (leads_revoke? h hu).1 (hends.bindsAll hb) hn fun j hj => ?_
    have hne : lease ≠ j := fun he => hlease (he ▸ hj)
    rw [hends.get?_leases, if_neg hne]
    exact hl j (List.mem_cons_of_mem _ hj)

section
variable {leases : List Int} (h : s.EndsInTurn leases t)
include h

theorem EndsInTurn.get?_leases (j : Int) : t.leases.get? j = if j ∈ leases then none else s.leases.get? j := by
  induction leases generalizing s with
  | nil =>
    cases h
    simp
  | cons lease leases ih =>
    obtain ⟨u, hu, ht⟩ := h
    rw [ih ht, hu.get?_leases]
    by_cases hj : j ∈ leases
    · simp [hj]
    · by_cases hl : lease = j
      · simp [hl]
      · simp [hj, hl, Ne.symm hl]

theorem EndsInTurn.current (k : Bytes) : t.current k = (s.current k).filter (·.lease ∉ leases) := by
  induction leases generalizing s with
  | nil =>
    cases h
    cases t.current k <;> rfl
  | cons lease leases ih =>
    obtain ⟨u, hu, ht⟩ := h
    rw [ih ht, hu.current, Option.filter_filter]
    simp [List.mem_cons, not_or, Bool.decide_and]

/-- Keys that are not bound to the leases stay as they are. -/
theorem EndsInTurn.histories {k : Bytes} (hk : ∀ r, s.current k = some r → r.lease ∉ leases) :
    t.histories.get? k = s.histories.get? k := by
  induction leases generalizing s with
  | nil =>
    cases h
    rfl
  | cons lease leases ih =>
    obtain ⟨u, hu, ht⟩ := h
    have hfree : k ∉ s.bound lease := fun hm => by
      obtain ⟨r, hr, hl⟩ := (s.mem_bound lease).1 hm
      exact hk r hr (hl ▸ List.mem_cons_self)
    rw [ih ht fun r hr => ?_, hu.histories, if_neg hfree]
    rw [hu.current, Option.filter_eq_some_iff] at hr
    exact fun hm => hk r hr.1 (List.mem_cons_of_mem _ hm)

theorem EndsInTurn.bound {lease : Int} (hl : lease ∉ leases) : t.bound lease = s.bound lease := by
  refine SortedMap.keys_eq_of_mem_iff (SortedMap.keys_pairwise _) (SortedMap.keys_pairwise _) fun k => ?_
  refine (t.mem_bound lease).trans (Iff.trans ?_ (s.mem_bound lease).symm)
  simp only [h.current, Option.filter_eq_some_iff, decide_eq_true_eq]
  exact ⟨fun ⟨r, hr, he⟩ => ⟨r, hr.1, he⟩, fun ⟨r, hr, he⟩ => ⟨r, ⟨hr, he ▸ hl⟩, he⟩⟩

theorem EndsInTurn.bindsAll (hb : s.BindsAll) : t.BindsAll := by
  induction leases generalizing s with
  | nil =>
    cases h
    exact hb
  | cons lease leases ih =>
    obtain ⟨u, hu, ht⟩ := h
    exact ih ht (hu.bindsAll hb)

end

/-! ## Due leases -/

theorem mem_due (s : Store) {now : Nat} {lease : Int} :
    lease ∈ s.due now ↔ ∃ l, s.leases.get? lease = some l ∧ l.deadline ≤ now := by
  rw [due, SortedMap.mem_keys_iff, SortedMap.get?_filter, Option.isSome_iff_exists]
  simp only [Option.filter_eq_some_iff, decide_eq_true_eq]

theorem endsInTurn_expire (h : s.Sound) (hb : s.BindsAll) (now : Nat) :
    s.EndsInTurn (s.due now) (s.expire now) := by
  refine endsInTurn_endAll _ h hb (SortedMap.keys_nodup _) fun lease hl => ?_
  obtain ⟨l, hl, _⟩ := s.mem_due.1 hl
  simp [hl]

/-- The leases that are not due are left, and no others. -/
theorem get?_leases_expire (h : s.Sound) (hb : s.BindsAll) (now : Nat) (j : Int) :
    (s.expire now).leases.get? j = (s.leases.get? j).filter fun l => now < l.deadline := by
  rw [(endsInTurn_expire h hb now).get?_leases]
  simp only [mem_due]
  cases hl : s.leases.get? j with
  | none => simp
  | some l =>
    by_cases hd : l.deadline ≤ now
    · simp [Option.filter, hd]
    · simp [Option.filter, hd]

end Store

end Keyspace
