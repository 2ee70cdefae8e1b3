import Keyspace.Proofs.Store.Commit

/-!
# Drafts

A draft is a plain map of records under change: operations are written into it one after the other, and it
keeps the events that tell of them. An edit does to the latest view what the draft does to the map
(`Edit.draft_applyAll`), and adds to its histories at the draft's revision only (`Edit.Grows.applyAll`).
-/

namespace Keyspace

structure Draft where
  /-- The revision that all records are written at. -/
  revision : Int
  view : SortedMap Bytes Record
  events : List Event

namespace Draft

/-- What a put writes goes on from the record that is there. -/
def recordOf (d : Draft) (key value : Bytes) (lease : Option Int) : Record where
  key := key
  value := value
  createRevision := (d.view.get? key).elim d.revision (·.createRevision)
  modRevision := d.revision
  version := (d.view.get? key).elim 1 (·.version + 1)
  lease := lease.getD 0

/-- The keys of a span that are there, in key order. -/
def present (d : Draft) (span : Span) : List Bytes := (d.view.filter fun k _ => span.contains k).keys

def put (d : Draft) (key value : Bytes) (lease : Option Int) : Draft :=
  { d with
    view := d.view.insert key (d.recordOf key value lease)
    events := d.events ++ [⟨.put, d.recordOf key value lease⟩] }

def delete (d : Draft) (span : Span) : Draft :=
  { d with
    view := d.view.filter fun k _ => !span.contains k
    events := d.events ++ (d.present span).map fun k => ⟨.delete, ⟨k, [], 0, d.revision, 0, 0⟩⟩ }

def apply (d : Draft) : Op → Draft
  | .put key value lease => d.put key value lease
  | .delete span => d.delete span

def applyAll (d : Draft) (ops : List Op) : Draft := ops.foldl apply d

@[simp] theorem revision_apply (d : Draft) (op : Op) : (d.apply op).revision = d.revision := by
  cases op <;> rfl

theorem stamped_applyAll (ops : List Op) : ∀ {d : Draft}, (∀ e ∈ d.events, e.record.modRevision = d.revision) →
    ∀ e ∈ (d.applyAll ops).events, e.record.modRevision = d.revision := by
  induction ops with
  | nil => exact fun h => h
  | cons op ops ih =>
    intro d h
    have hop : ∀ e ∈ (d.apply op).events, e.record.modRevision = (d.apply op).revision := by
      intro e he
      rw [revision_apply]
      cases op with
      | put key value lease =>
        rcases List.mem_append.1 he with he | he
        · exact h e he
        · rw [List.mem_singleton.1 he]
          rfl
      | delete span =>
        rcases List.mem_append.1 he with he | he
        · exact h e he
        · obtain ⟨k, _, rfl⟩ := List.mem_map.1 he
          rfl
    have := ih hop
    rwa [revision_apply] at this

end Draft

/-! ## Edits -/

namespace Edit

def draft (e : Edit) : Draft := ⟨e.revision, e.store.latest, e.events⟩

@[simp] theorem revision_remove (e : Edit) (key : Bytes) : (e.remove key).revision = e.revision := by
  unfold remove
  split <;> rfl

theorem removeAll_filter {p : Bytes → Bool} (keys : List Bytes) : ∀ {e : Edit},
    (∀ k ∈ keys, p k = false → e.store.current k = none) →
      keys.foldl remove e = (keys.filter p).foldl remove e := by
  induction keys with
  | nil => exact fun _ => rfl
  | cons key keys ih =>
    intro e h
    have hrest : ∀ k ∈ keys, p k = false → (e.remove key).store.current k = none := by
      intro k hk hp
      rw [current_remove, h k (List.mem_cons_of_mem _ hk) hp, ite_self]
    rw [List.foldl_cons, ih hrest, List.filter_cons]
    cases hp : p key with
    | true => rfl
    | false => rw [remove_of_absent (h key List.mem_cons_self hp)]; rfl

theorem delete_eq_removeAll (e : Edit) (span : Span) :
    e.delete span = (e.draft.present span).foldl remove e := by
  -- A deletion goes over all keys that have a history, also those that are gone.
  have hkeys : (e.store.keysIn span).filter (fun k => (e.store.current k).isSome) = e.draft.present span := by
    apply SortedMap.keys_eq_of_mem_iff ((e.store.keysIn_pairwise span).filter _) (SortedMap.keys_pairwise _)
    intro k
    rw [List.mem_filter, Store.mem_keysIn, SortedMap.mem_keys_iff, SortedMap.get?_filter]
    show _ ↔ ((e.store.latest.get? k).filter _).isSome = true
    rw [Store.get?_latest]
    unfold Store.current
    cases e.store.histories.get? k with
    | none => simp
    | some l => cases hl : l.latest <;> simp [hl]
  rw [← hkeys]
  exact removeAll_filter _ fun k _ hk => by simpa using hk

theorem events_remove {e : Edit} {key : Bytes} {r : Record} (h : e.store.current key = some r) :
    (e.remove key).events = e.events ++ [⟨.delete, ⟨key, [], 0, e.revision, 0, 0⟩⟩] := by
  rw [remove_eq_write h]
  rfl

theorem events_removeAll (keys : List Bytes) : ∀ {e : Edit}, keys.Nodup →
    (∀ k ∈ keys, (e.store.current k).isSome) → (keys.foldl remove e).events =
      e.events ++ keys.map fun k => ⟨.delete, ⟨k, [], 0, e.revision, 0, 0⟩⟩ := by
  induction keys with
  | nil => intro e _ _; simp
  | cons key keys ih =>
    intro e hn h
    obtain ⟨hkey, hn⟩ := List.nodup_cons.1 hn
    obtain ⟨r, hr⟩ := Option.isSome_iff_exists.1 (h key List.mem_cons_self)
    -- No key stands twice, so those that are left are still there.
    have hrest : ∀ k ∈ keys, ((e.remove key).store.current k).isSome := by
      intro k hk
      have hne : key ≠ k := fun he => hkey (he ▸ hk)
      rw [current_remove, if_neg hne]
      exact h k (List.mem_cons_of_mem _ hk)
    rw [List.foldl_cons, ih hn hrest, events_remove hr, revision_remove, List.append_assoc]
    rfl

theorem revision_removeAll (keys : List Bytes) : ∀ e : Edit, (keys.foldl remove e).revision = e.revision := by
  induction keys with
  | nil => exact fun _ => rfl
  | cons key keys ih => exact fun e => (ih (e.remove key)).trans (e.revision_remove key)

theorem draft_put (e : Edit) (key value : Bytes) (lease : Option Int) :
    (e.put key value lease).draft = e.draft.put key value lease := by
  have hr : e.recordOf key value lease = e.draft.recordOf key value lease := by
    unfold recordOf Draft.recordOf draft
    simp only [Store.get?_latest]
  have hv : (e.put key value lease).store.latest = e.store.latest.insert key (e.recordOf key value lease) := by
    refine SortedMap.ext_get? fun k => ?_
    rw [Store.get?_latest, current_put, SortedMap.get?_insert, Store.get?_latest]
  have hev : (e.put key value lease).events = e.events ++ [⟨.put, e.recordOf key value lease⟩] := rfl
  unfold draft Draft.put
  rw [hv, hev, hr]
  rfl

theorem draft_delete (e : Edit) (span : Span) : (e.delete span).draft = e.draft.delete span := by
  have hv : (e.delete span).store.latest = e.store.latest.filter fun k _ => !span.contains k := by
    refine SortedMap.ext_get? fun k => ?_
    rw [Store.get?_latest, current_delete, SortedMap.get?_filter, Store.get?_latest]
    cases e.store.current k <;> cases span.contains k <;> rfl
  have hn : (e.draft.present span).Nodup := (SortedMap.keys_pairwise _).imp fun h => KeyOrder.ne_of_lt h
  have hp : ∀ k ∈ e.draft.present span, (e.store.current k).isSome := by
    intro k hk
    have hk := (SortedMap.mem_keys_iff _ k).1 hk
    rw [SortedMap.get?_filter, Option.isSome_iff_exists] at hk
    obtain ⟨r, hr⟩ := hk
    rw [← Store.get?_latest, Option.isSome_iff_exists]
    exact ⟨r, (Option.filter_eq_some_iff.1 hr).1⟩
  have hev := events_removeAll _ hn hp
  have hrev := revision_removeAll (e.draft.present span) e
  rw [← delete_eq_removeAll] at hev hrev
  unfold draft Draft.delete
  rw [hv, hev, hrev]
  rfl

theorem draft_apply (e : Edit) (op : Op) : (e.apply op).draft = e.draft.apply op := by
  cases op with
  | put key value lease => exact e.draft_put key value lease
  | delete span => exact e.draft_delete span

theorem draft_applyAll (ops : List Op) : ∀ e : Edit, (e.applyAll ops).draft = e.draft.applyAll ops := by
  induction ops with
  | nil => exact fun _ => rfl
  | cons op ops ih =>
    intro e
    show ((e.apply op).applyAll ops).draft = (e.draft.apply op).applyAll ops
    rw [ih, draft_apply]

/-! ## Histories -/

/-- Histories have new points of the edit's revision, and what they had before. -/
def Grows (s : Store) (e : Edit) : Prop :=
  ∀ k, ∃ new : History, (e.store.histories.get? k).getD [] = new ++ (s.histories.get? k).getD [] ∧
    ∀ p ∈ new, p.revision = e.revision ∧ ∀ r, p.record = some r → r.modRevision = e.revision

variable {s : Store} {e : Edit}

theorem grows_start (s : Store) : (start s).Grows s := fun _ => ⟨[], rfl, by simp⟩

theorem Grows.write (h : e.Grows s) {leases : SortedMap Int Lease} {key : Bytes} {record : Option Record}
    (hr : ∀ r, record = some r → r.modRevision = e.revision) : (e.write leases key record).Grows s := by
  intro k
  obtain ⟨new, hnew, hp⟩ := h k
  rw [get?_histories_write]
  by_cases hk : key = k
  · subst hk
    refine ⟨⟨e.revision, record⟩ :: new, by simp [hnew], fun p hm => ?_⟩
    rcases List.mem_cons.1 hm with rfl | hm
    · exact ⟨rfl, hr⟩
    · exact hp p hm
  · rw [if_neg hk]
    exact ⟨new, hnew, hp⟩

theorem Grows.put (h : e.Grows s) (key value : Bytes) (lease : Option Int) : (e.put key value lease).Grows s := by
  rw [put_eq_write]
  exact h.write fun r hr => by cases hr; rfl

theorem Grows.remove (h : e.Grows s) (key : Bytes) : (e.remove key).Grows s := by
  cases hc : e.store.current key with
  | none => rwa [remove_of_absent hc]
  | some r =>
    rw [remove_eq_write hc]
    exact h.write nofun

theorem Grows.removeAll (keys : List Bytes) : ∀ {e : Edit}, e.Grows s → (keys.foldl Edit.remove e).Grows s := by
  induction keys with
  | nil => exact fun h => h
  | cons key keys ih => exact fun h => ih (h.remove key)

theorem Grows.applyAll (ops : List Op) : ∀ {e : Edit}, e.Grows s → (e.applyAll ops).Grows s := by
  induction ops with
  | nil => exact fun h => h
  | cons op ops ih =>
    intro e h
    refine ih ?_
    cases op with
    | put key value lease => exact h.put key value lease
    | delete span => exact h.removeAll _

end Edit

end Keyspace
