import Keyspace.Proofs.Store.View
import Keyspace.Store.Lease

/-!
# Edits

Whatever is done to a store in the middle of a commit is a sequence of writes: each puts one point on
top of one history and adds the event that tells of it. What a write keeps is proved once
(`Stands.write`), so an edit changes no view up to the revision it began at, and what it made of the
latest view is what its events tell (`Stands`).
-/

namespace Keyspace

/-! ## What events do to a view -/

def Event.applyTo (m : SortedMap Bytes Record) (e : Event) : SortedMap Bytes Record :=
  match e.kind with
  | .put => m.insert e.record.key e.record
  | .delete => m.erase e.record.key

def Batch.applyTo (m : SortedMap Bytes Record) (b : Batch) : SortedMap Bytes Record :=
  b.events.foldl Event.applyTo m

/-- The event of a write; no record means that the key is deleted. -/
def Event.ofWrite (key : Bytes) (revision : Int) : Option Record → Event
  | some r => ⟨.put, r⟩
  | none => ⟨.delete, ⟨key, [], 0, revision, 0, 0⟩⟩

theorem Event.get?_applyTo_of_ne (m : SortedMap Bytes Record) {e : Event} {k : Bytes}
    (h : e.record.key ≠ k) : (e.applyTo m).get? k = m.get? k := by
  unfold applyTo
  cases e.kind with
  | put => simp only; rw [SortedMap.get?_insert, if_neg h]
  | delete => simp only; rw [SortedMap.get?_erase, if_neg h]

theorem Event.get?_applyAll_of_ne {events : List Event} {k : Bytes} (h : ∀ e ∈ events, e.record.key ≠ k) :
    ∀ m : SortedMap Bytes Record, (events.foldl Event.applyTo m).get? k = m.get? k := by
  induction events with
  | nil => intro m; rfl
  | cons e events ih =>
    intro m
    rw [List.foldl_cons, ih (fun d hd => h d (List.mem_cons_of_mem _ hd)),
      Event.get?_applyTo_of_ne m (h e (by simp))]

theorem Event.get?_of_applyAll_delete {events : List Event} (h : ∀ e ∈ events, e.kind = .delete)
    {k : Bytes} {r : Record} : ∀ {m : SortedMap Bytes Record},
      (events.foldl Event.applyTo m).get? k = some r → m.get? k = some r := by
  induction events with
  | nil => intro m hr; exact hr
  | cons e events ih =>
    intro m hr
    have he := ih (fun d hd => h d (List.mem_cons_of_mem _ hd)) hr
    unfold Event.applyTo at he
    rw [h e (by simp)] at he
    simp only [SortedMap.get?_erase] at he
    split at he
    · cases he
    · exact he

theorem Batch.foldl_applyTo (bs : List Batch) : ∀ m : SortedMap Bytes Record,
    bs.foldl Batch.applyTo m = (bs.flatMap (·.events)).foldl Event.applyTo m := by
  induction bs with
  | nil => intro m; rfl
  | cons b bs ih =>
    intro m
    rw [List.foldl_cons, ih, List.flatMap_cons, List.foldl_append]
    rfl

theorem Event.get?_ofWrite {m : SortedMap Bytes Record} {key : Bytes} {revision : Int}
    {record : Option Record} (h : ∀ r, record = some r → r.key = key) (k : Bytes) :
    ((Event.ofWrite key revision record).applyTo m).get? k = if key = k then record else m.get? k := by
  cases record with
  | none => exact SortedMap.get?_erase m key k
  | some r =>
    have hr := h r rfl
    subst hr
    exact SortedMap.get?_insert m r.key r k

/-! ## Leases -/

/-- `lease` is there, and `key` is among its keys. -/
def Store.Binds (s : Store) (lease : Int) (key : Bytes) : Prop :=
  ∃ l, s.leases.get? lease = some l ∧ (l.keys.get? key).isSome

def Store.BindsSoundly (s : Store) : Prop :=
  ∀ lease key, s.Binds lease key → ∃ r, s.current key = some r ∧ r.lease = lease

namespace Edit

theorem get?_leases_unbind (s : Store) (lease : Int) (key : Bytes) (j : Int) :
    (unbind s lease key).leases.get? j =
      (s.leases.get? j).map fun l => if lease = j then { l with keys := l.keys.erase key } else l := by
  unfold unbind
  cases h : s.leases.get? lease with
  | none =>
    by_cases hj : lease = j
    · subst hj; simp [h]
    · simp [hj]
  | some l =>
    simp only [SortedMap.get?_insert]
    by_cases hj : lease = j
    · subst hj; simp [h]
    · simp [hj]

theorem get?_leases_bind (s : Store) (lease : Int) (key : Bytes) (j : Int) :
    (bind s lease key).leases.get? j = (s.leases.get? j).map fun l =>
      if lease = j then { l with keys := SortedSet.insert l.keys key } else l := by
  unfold bind
  cases h : s.leases.get? lease with
  | none =>
    by_cases hj : lease = j
    · subst hj; simp [h]
    · simp [hj]
  | some l =>
    simp only [SortedMap.get?_insert]
    by_cases hj : lease = j
    · subst hj; simp [h]
    · simp [hj]

theorem binds_unbind {s : Store} {lease j : Int} {key k : Bytes} :
    (unbind s lease key).Binds j k ↔ s.Binds j k ∧ ¬ (lease = j ∧ key = k) := by
  unfold Store.Binds
  rw [get?_leases_unbind]
  constructor
  · rintro ⟨l, hl, hk⟩
    obtain ⟨l, hs, rfl⟩ := Option.map_eq_some_iff.1 hl
    by_cases hj : lease = j
    · rw [if_pos hj, SortedMap.get?_erase] at hk
      by_cases hkey : key = k
      · simp [hkey] at hk
      · rw [if_neg hkey] at hk
        exact ⟨⟨l, hs, hk⟩, fun h => hkey h.2⟩
    · rw [if_neg hj] at hk
      exact ⟨⟨l, hs, hk⟩, fun h => hj h.1⟩
  · rintro ⟨⟨l, hs, hk⟩, hne⟩
    refine ⟨_, Option.map_eq_some_iff.2 ⟨l, hs, rfl⟩, ?_⟩
    by_cases hj : lease = j
    · have hkey : key ≠ k := fun h => hne ⟨hj, h⟩
      rwa [if_pos hj, SortedMap.get?_erase, if_neg hkey]
    · rwa [if_neg hj]

theorem binds_bind {s : Store} {lease j : Int} {key k : Bytes} (h : (bind s lease key).Binds j k) :
    s.Binds j k ∨ (lease = j ∧ key = k) := by
  obtain ⟨l, hl, hk⟩ := h
  rw [get?_leases_bind] at hl
  obtain ⟨l, hs, rfl⟩ := Option.map_eq_some_iff.1 hl
  by_cases hj : lease = j
  · rw [if_pos hj] at hk
    by_cases hkey : key = k
    · exact .inr ⟨hj, hkey⟩
    · have hk' : ((SortedSet.insert l.keys key).get? k) = l.keys.get? k := by
        rw [SortedSet.insert, SortedMap.get?_insert, if_neg hkey]
      exact .inl ⟨l, hs, hk' ▸ hk⟩
  · rw [if_neg hj] at hk
    exact .inl ⟨l, hs, hk⟩

/-! ## One write -/

/-- Puts a point on top of the history of a key and adds its event; `leases` are the leases after. -/
def write (e : Edit) (leases : SortedMap Int Lease) (key : Bytes) (record : Option Record) : Edit :=
  { e with
    store := addPoint { e.store with leases } key ⟨e.revision, record⟩
    events := e.events ++ [.ofWrite key e.revision record] }

def recordOf (e : Edit) (key value : Bytes) (lease : Option Int) : Record where
  key := key
  value := value
  createRevision := (e.store.current key).elim e.revision (·.createRevision)
  modRevision := e.revision
  version := (e.store.current key).elim 1 (·.version + 1)
  lease := lease.getD 0

/-- A store in which a key is no more bound to the lease of its record, unless that is `keep`. -/
def released (s : Store) (key : Bytes) (keep : Int) : Store :=
  match s.current key with
  | some r => if r.lease ≠ 0 && r.lease ≠ keep then unbind s r.lease key else s
  | none => s

def rebound (s : Store) (key : Bytes) (lease : Int) : Store :=
  if lease ≠ 0 then bind (released s key lease) lease key else released s key lease

theorem unbind_eq (s : Store) (lease : Int) (key : Bytes) :
    unbind s lease key = { s with leases := (unbind s lease key).leases } := by
  unfold unbind; cases s.leases.get? lease <;> rfl

theorem bind_eq (s : Store) (lease : Int) (key : Bytes) :
    bind s lease key = { s with leases := (bind s lease key).leases } := by
  unfold bind; cases s.leases.get? lease <;> rfl

theorem released_eq (s : Store) (key : Bytes) (keep : Int) :
    released s key keep = { s with leases := (released s key keep).leases } := by
  unfold released
  cases s.current key with
  | none => rfl
  | some r =>
    simp only
    split
    · exact unbind_eq s r.lease key
    · rfl

theorem rebound_eq (s : Store) (key : Bytes) (lease : Int) :
    rebound s key lease = { s with leases := (rebound s key lease).leases } := by
  unfold rebound
  split
  · rw [bind_eq, released_eq]
  · exact released_eq s key lease

theorem put_eq_write (e : Edit) (key value : Bytes) (lease : Option Int) :
    e.put key value lease =
      e.write (rebound e.store key (lease.getD 0)).leases key (some (e.recordOf key value lease)) := by
  have h := rebound_eq e.store key (lease.getD 0)
  have hp : e.put key value lease =
      { e with
        store := addPoint (rebound e.store key (lease.getD 0)) key
          ⟨e.revision, some (e.recordOf key value lease)⟩
        events := e.events ++ [⟨.put, e.recordOf key value lease⟩] } := rfl
  rw [hp, h]
  rfl

theorem remove_of_absent {e : Edit} {key : Bytes} (h : e.store.current key = none) : e.remove key = e := by
  unfold remove; rw [h]

theorem remove_eq_write {e : Edit} {key : Bytes} {r : Record} (h : e.store.current key = some r) :
    e.remove key = e.write (released e.store key 0).leases key none := by
  have hr : released e.store key 0 = if r.lease ≠ 0 then unbind e.store r.lease key else e.store := by
    unfold released
    rw [h]
    by_cases h0 : r.lease = 0 <;> simp [h0]
  have he := released_eq e.store key 0
  unfold remove
  rw [h]
  simp only
  rw [← hr, he]
  rfl

/-! ## The lookups after a write -/

theorem get?_histories_write (e : Edit) (leases : SortedMap Int Lease) (key : Bytes)
    (record : Option Record) (k : Bytes) :
    (e.write leases key record).store.histories.get? k =
      if key = k then some (⟨e.revision, record⟩ :: (e.store.histories.get? key).getD [])
      else e.store.histories.get? k :=
  SortedMap.get?_insert ..

theorem current_write (e : Edit) (leases : SortedMap Int Lease) (key : Bytes) (record : Option Record)
    (k : Bytes) :
    (e.write leases key record).store.current k = if key = k then record else e.store.current k := by
  unfold Store.current
  rw [get?_histories_write]
  split <;> rfl

theorem binds_released {s : Store} {key k : Bytes} {keep j : Int} (hs : s.BindsSoundly)
    (hpos : ∀ lease, (s.leases.get? lease).isSome → 0 < lease) (h : (released s key keep).Binds j k) :
    s.Binds j k ∧ (key = k → j = keep) := by
  have hb : s.Binds j k := by
    unfold released at h
    split at h
    · split at h
      · exact (binds_unbind.1 h).1
      · exact h
    · exact h
  refine ⟨hb, fun hk => ?_⟩
  subst hk
  obtain ⟨r, hr, hj⟩ := hs j key hb
  have h0 : 0 < j := by
    obtain ⟨l, hl, _⟩ := hb
    exact hpos j (by simp [hl])
  apply Classical.byContradiction
  intro hne
  have hc : (r.lease ≠ 0 && r.lease ≠ keep) = true := by
    simp only [Bool.and_eq_true, decide_eq_true_eq]
    omega
  unfold released at h
  rw [hr] at h
  simp only at h
  rw [if_pos hc] at h
  exact (binds_unbind.1 h).2 ⟨hj, rfl⟩

end Edit

/-! ## An edit under way -/

/-- A record as a write at `revision` leaves it under `key`. -/
structure Record.Fits (r : Record) (key : Bytes) (revision : Int) : Prop where
  key : r.key = key
  modRevision : r.modRevision = revision
  create_pos : 0 < r.createRevision
  create_le : r.createRevision ≤ revision
  version_pos : 0 < r.version

/-- Points are dated `revision` or earlier and hold records that fit them. -/
def Store.Dated (s : Store) (revision : Int) : Prop :=
  ∀ k h, s.histories.get? k = some h → ∀ p ∈ h, p.revision ≤ revision ∧
    ∀ r, p.record = some r → r.Fits k p.revision

theorem Store.Dated.mono {s : Store} {revision revision' : Int} (h : s.Dated revision)
    (hle : revision ≤ revision') : s.Dated revision' := fun k l hl p hp =>
  ⟨by have := (h k l hl p hp).1; omega, (h k l hl p hp).2⟩

theorem Store.Dated.current {s : Store} {revision : Int} (h : s.Dated revision) {k : Bytes} {r : Record}
    (hr : s.current k = some r) : ∃ n ≤ revision, r.Fits k n := by
  obtain ⟨l, hl, hr⟩ := Option.bind_eq_some_iff.1 hr
  obtain ⟨p, hp, hr⟩ := History.latest_of_mem hr
  exact ⟨p.revision, (h k l hl p hp).1, (h k l hl p hp).2 r hr⟩

theorem Store.Dated.asOf {s : Store} {revision : Int} (h : s.Dated revision) {n : Int} {k : Bytes}
    {r : Record} (hr : (s.asOf n).get? k = some r) : ∃ m ≤ n, r.Fits k m := by
  rw [Store.get?_asOf] at hr
  obtain ⟨l, hl, hr⟩ := Option.bind_eq_some_iff.1 hr
  obtain ⟨p, hp, hle, hr⟩ := History.asOf_of_mem hr
  exact ⟨p.revision, hle, (h k l hl p hp).2 r hr⟩

theorem Store.Dated.created_of_asOf {s : Store} {revision : Int} (h : s.Dated revision) {n : Int} {k : Bytes}
    {r : Record} (hr : (s.asOf n).get? k = some r) : r.createRevision ≠ 0 := by
  obtain ⟨_, _, hf⟩ := h.asOf hr
  have := hf.create_pos
  omega

/-- What `e` has of an edit that began at `s`. -/
structure Edit.Stands (s : Store) (e : Edit) : Prop where
  revision : e.revision = s.revision + 1
  /-- Nothing but histories and leases changes. -/
  frame : e.store = { s with histories := e.store.histories, leases := e.store.leases }
  past : ∀ r, r ≤ s.revision → e.store.asOf r = s.asOf r
  latest : e.store.latest = e.events.foldl Event.applyTo s.latest
  dated : e.store.Dated e.revision
  stamped : ∀ ev ∈ e.events, ev.record.modRevision = e.revision
  binds : e.store.BindsSoundly
  live : ∀ lease, (e.store.leases.get? lease).isSome = (s.leases.get? lease).isSome
  unchanged : e.events = [] → e.store = s

namespace Edit

theorem Stands.start {s : Store} (hd : s.Dated s.revision) (hb : s.BindsSoundly) : Stands s (start s) where
  revision := rfl
  frame := rfl
  past _ _ := rfl
  latest := rfl
  dated := hd.mono (Int.le_of_lt (Int.lt_succ s.revision))
  stamped _ h := by cases h
  binds := hb
  live _ := rfl
  unchanged _ := rfl

variable {s : Store} {e : Edit}

theorem Stands.write (h : Stands s e) {leases : SortedMap Int Lease} {key : Bytes} {record : Option Record}
    (hr : ∀ r, record = some r → r.Fits key e.revision)
    (hl : ∀ lease, (leases.get? lease).isSome = (e.store.leases.get? lease).isSome)
    (hb : (e.write leases key record).store.BindsSoundly) : Stands s (e.write leases key record) where
  revision := h.revision
  frame := by
    have hf : (e.write leases key record).store =
        { e.store with histories := (e.write leases key record).store.histories, leases } := rfl
    rw [hf, h.frame]
  past r hle := by
    rw [← h.past r hle]
    refine SortedMap.ext_get? fun k => ?_
    rw [Store.get?_asOf, Store.get?_asOf, get?_histories_write]
    by_cases hk : key = k
    · subst hk
      have hlt : r < (⟨e.revision, record⟩ : Point).revision := by
        have := h.revision
        simp only; omega
      rw [if_pos rfl, Option.bind_some, History.asOf_cons_of_lt hlt]
      cases e.store.histories.get? key <;> rfl
    · rw [if_neg hk]
  latest := by
    refine SortedMap.ext_get? fun k => ?_
    have hev : (e.write leases key record).events = e.events ++ [.ofWrite key e.revision record] := rfl
    rw [hev, List.foldl_append, List.foldl_cons, List.foldl_nil, ← h.latest,
      Event.get?_ofWrite fun r hr' => (hr r hr').key, Store.get?_latest, Store.get?_latest, current_write]
  dated k l hk p hp := by
    rw [get?_histories_write] at hk
    by_cases hkey : key = k
    · rw [if_pos hkey] at hk
      cases hk
      rcases List.mem_cons.1 hp with rfl | hp
      · exact ⟨Int.le_refl _, fun r hr' => hkey ▸ hr r hr'⟩
      · cases hg : e.store.histories.get? key with
        | none => rw [hg] at hp; cases hp
        | some l => rw [hg] at hp; exact hkey ▸ h.dated key l hg p hp
    · rw [if_neg hkey] at hk
      exact h.dated k l hk p hp
  stamped ev hev := by
    rcases List.mem_append.1 hev with hev | hev
    · exact h.stamped ev hev
    · rw [List.mem_singleton.1 hev]
      cases record with
      | none => rfl
      | some r => exact (hr r rfl).modRevision
  binds := hb
  live lease := (hl lease).trans (h.live lease)
  unchanged he := by simp [Edit.write] at he

theorem isSome_leases_unbind (s : Store) (lease : Int) (key : Bytes) (j : Int) :
    ((unbind s lease key).leases.get? j).isSome = (s.leases.get? j).isSome := by
  rw [get?_leases_unbind, Option.isSome_map]

theorem isSome_leases_released (s : Store) (key : Bytes) (keep j : Int) :
    ((released s key keep).leases.get? j).isSome = (s.leases.get? j).isSome := by
  unfold released
  split
  · split
    · exact isSome_leases_unbind ..
    · rfl
  · rfl

theorem isSome_leases_rebound (s : Store) (key : Bytes) (lease j : Int) :
    ((rebound s key lease).leases.get? j).isSome = (s.leases.get? j).isSome := by
  unfold rebound
  split
  · rw [get?_leases_bind, Option.isSome_map, isSome_leases_released]
  · exact isSome_leases_released ..

theorem Stands.fits_recordOf (h : Stands s e) (hrev : 0 ≤ s.revision) (key value : Bytes)
    (lease : Option Int) : (e.recordOf key value lease).Fits key e.revision := by
  have hr := h.revision
  cases hc : e.store.current key with
  | none => exact ⟨rfl, rfl, by simp [recordOf, hc]; omega, by simp [recordOf, hc], by simp [recordOf, hc]⟩
  | some r =>
    obtain ⟨n, hn, hf⟩ := h.dated.current hc
    have h₁ := hf.create_pos
    have h₂ := hf.create_le
    have h₃ := hf.version_pos
    exact ⟨rfl, rfl, by simpa [recordOf, hc] using h₁, by simp [recordOf, hc]; omega,
      by simp [recordOf, hc]; omega⟩

variable (hrev : 0 ≤ s.revision) (hpos : ∀ lease, (s.leases.get? lease).isSome → 0 < lease)
include hpos

theorem Stands.pos (h : Stands s e) (lease : Int) (hl : (e.store.leases.get? lease).isSome) : 0 < lease :=
  hpos lease (h.live lease ▸ hl)

include hrev in
theorem Stands.put (h : Stands s e) (key value : Bytes) (lease : Option Int) :
    Stands s (e.put key value lease) := by
  rw [put_eq_write]
  refine h.write (fun r hr => by cases hr; exact h.fits_recordOf hrev key value lease) (isSome_leases_rebound e.store key _) ?_
  intro j k hb
  rw [current_write]
  have hb : (rebound e.store key (lease.getD 0)).Binds j k := hb
  have hrel : (released e.store key (lease.getD 0)).Binds j k ∨ (lease.getD 0 = j ∧ key = k) := by
    unfold rebound at hb
    split at hb
    · exact binds_bind hb
    · exact .inl hb
  rcases hrel with hrel | ⟨hj, hk⟩
  · obtain ⟨hold, hkeep⟩ := binds_released h.binds (h.pos hpos) hrel
    by_cases hk : key = k
    · exact ⟨_, if_pos hk, (hkeep hk).symm⟩
    · rw [if_neg hk]
      exact h.binds j k hold
  · exact ⟨_, if_pos hk, hj⟩

theorem Stands.remove (h : Stands s e) (key : Bytes) : Stands s (e.remove key) := by
  cases hc : e.store.current key with
  | none => rwa [remove_of_absent hc]
  | some r =>
    rw [remove_eq_write hc]
    refine h.write (fun r hr => by cases hr) (isSome_leases_released e.store key 0) ?_
    intro j k hb
    rw [current_write]
    have hb : (released e.store key 0).Binds j k := hb
    obtain ⟨hold, hkeep⟩ := binds_released h.binds (h.pos hpos) hb
    by_cases hk : key = k
    · -- a lease that is there has a positive id, so the key is bound to none
      obtain ⟨l, hl, _⟩ := hold
      have h0 := h.pos hpos j (by simp [hl])
      have := hkeep hk
      omega
    · rw [if_neg hk]
      exact h.binds j k hold

theorem Stands.removeAll (keys : List Bytes) :
    ∀ {e : Edit}, Stands s e → Stands s (keys.foldl Edit.remove e) := by
  induction keys with
  | nil => intro e h; exact h
  | cons k keys ih => intro e h; exact ih (h.remove hpos k)

include hrev in
theorem Stands.apply (h : Stands s e) (op : Op) : Stands s (e.apply op) := by
  cases op with
  | put key value lease => exact h.put hrev hpos key value lease
  | delete span => exact Stands.removeAll hpos _ h

include hrev in
theorem Stands.applyAll (ops : List Op) : ∀ {e : Edit}, Stands s e → Stands s (e.applyAll ops) := by
  induction ops with
  | nil => intro e h; exact h
  | cons op ops ih => intro e h; exact ih (h.apply hrev hpos op)

end Edit

end Keyspace
