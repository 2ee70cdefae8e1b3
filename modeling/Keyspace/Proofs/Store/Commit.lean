import Keyspace.Proofs.Store.Answer

/-!
# What a commit does to single keys

A put leaves its record at its key and a deletion nothing in its span; all other keys stay. What
happens elsewhere is not seen at a key, at none of the revisions on the way (`Leads.get?_since`).
-/

namespace Keyspace

/-! ## Keys after an edit -/

namespace Edit

theorem current_put (e : Edit) (key value : Bytes) (lease : Option Int) (k : Bytes) :
    (e.put key value lease).store.current k =
      if key = k then some (e.recordOf key value lease) else e.store.current k := by
  rw [put_eq_write, current_write]

theorem current_remove (e : Edit) (key k : Bytes) :
    (e.remove key).store.current k = if key = k then none else e.store.current k := by
  cases hc : e.store.current key with
  | none =>
    rw [remove_of_absent hc]
    split
    · rename_i hk
      rw [← hk, hc]
    · rfl
  | some r => rw [remove_eq_write hc, current_write]

theorem current_removeAll (keys : List Bytes) (k : Bytes) : ∀ e : Edit,
    (keys.foldl Edit.remove e).store.current k = if k ∈ keys then none else e.store.current k := by
  induction keys with
  | nil => intro e; simp
  | cons key keys ih =>
    intro e
    rw [List.foldl_cons, ih, current_remove]
    by_cases hm : k ∈ keys
    · simp [hm]
    · by_cases hk : key = k
      · simp [hk]
      · simp [hm, hk, Ne.symm hk]

theorem current_delete (e : Edit) (span : Span) (k : Bytes) :
    (e.delete span).store.current k = if span.contains k then none else e.store.current k := by
  have hm := e.store.mem_keysIn span k
  unfold delete
  rw [current_removeAll]
  by_cases hs : span.contains k = true
  · rw [if_pos hs]
    split
    · rfl
    · rename_i hn
      have hnone : e.store.histories.get? k = none := by
        rw [← Option.not_isSome_iff_eq_none]
        exact fun h => hn (hm.2 ⟨hs, h⟩)
      rw [Store.current, hnone]
      rfl
  · rw [if_neg hs, if_neg fun h => hs (hm.1 h).1]

theorem prefix_events_remove (e : Edit) (key : Bytes) : e.events <+: (e.remove key).events := by
  unfold remove
  split
  · exact List.prefix_rfl
  · exact List.prefix_append _ _

theorem prefix_events_removeAll (keys : List Bytes) : ∀ e : Edit, e.events <+: (keys.foldl Edit.remove e).events := by
  induction keys with
  | nil => exact fun _ => List.prefix_rfl
  | cons key keys ih => exact fun e => (prefix_events_remove e key).trans (ih _)

theorem prefix_events_applyAll (ops : List Op) : ∀ e : Edit, e.events <+: (e.applyAll ops).events := by
  induction ops with
  | nil => exact fun _ => List.prefix_rfl
  | cons op ops ih =>
    intro e
    refine List.IsPrefix.trans ?_ (ih (e.apply op))
    cases op with
    | put key value lease => exact List.prefix_append _ _
    | delete span => exact prefix_events_removeAll _ e

end Edit

/-! ## Keys after a commit -/

namespace Store

variable {s s' : Store} {P : Event → Prop}

theorem current_commit (s : Store) (ops : List Op) (k : Bytes) :
    (s.commit ops).current k = ((Edit.start s).applyAll ops).store.current k := by
  unfold commit current
  rw [Edit.histories_commit]

theorem current_commit_put (s : Store) (key value : Bytes) (lease : Option Int) (k : Bytes) :
    (s.commit [.put key value lease]).current k =
      if key = k then some ((Edit.start s).recordOf key value lease) else s.current k :=
  (current_commit s _ k).trans (Edit.current_put ..)

theorem current_commit_delete (s : Store) (span : Span) (k : Bytes) :
    (s.commit [.delete span]).current k = if span.contains k then none else s.current k :=
  (current_commit s _ k).trans (Edit.current_delete ..)

theorem current_commit_put_delete (s : Store) (key value : Bytes) (lease : Option Int) (span : Span) (k : Bytes) :
    (s.commit [.put key value lease, .delete span]).current k =
      if span.contains k then none
      else if key = k then some ((Edit.start s).recordOf key value lease) else s.current k := by
  rw [current_commit]
  show (((Edit.start s).put key value lease).delete span).store.current k = _
  rw [Edit.current_delete, Edit.current_put]
  rfl

theorem current_commit_delete_delete (s : Store) (span span' : Span) (k : Bytes) :
    (s.commit [.delete span, .delete span']).current k =
      if span'.contains k then none else if span.contains k then none else s.current k := by
  rw [current_commit]
  show (((Edit.start s).delete span).delete span').store.current k = _
  rw [Edit.current_delete, Edit.current_delete]
  rfl

/-- A commit that changes something takes the next revision, and one that does not takes none. -/
theorem commit_cases (h : s.Sound) (ops : List Op) :
    ((s.commit ops).revision = s.revision ∧ (s.commit ops).latest = s.latest) ∨
      (s.commit ops).revision = s.revision + 1 := by
  have ha := (h.stands_applyAll ops).advances h
  by_cases he : ((Edit.start s).applyAll ops).events = []
  · have hb : ((Edit.start s).applyAll ops).batches = [] := by simp [Edit.batches, he]
    rw [hb] at ha
    exact .inl ⟨by have := ha.revision; rwa [List.length_nil, Int.natCast_zero, Int.add_zero] at this, ha.latest⟩
  · right
    have hb : ((Edit.start s).applyAll ops).batches.length = 1 := by simp [Edit.batches, he]
    have := ha.revision
    rw [hb] at this
    exact this

theorem revision_commit_put (h : s.Sound) (key value : Bytes) (lease : Option Int) (ops : List Op) :
    (s.commit (.put key value lease :: ops)).revision = s.revision + 1 := by
  have ha := (h.stands_applyAll (.put key value lease :: ops)).advances h
  have hp := Edit.prefix_events_applyAll ops ((Edit.start s).put key value lease)
  have he : ((Edit.start s).applyAll (.put key value lease :: ops)).events ≠ [] := by
    intro h0
    rw [show (Edit.start s).applyAll (.put key value lease :: ops) =
      ((Edit.start s).put key value lease).applyAll ops from rfl] at h0
    rw [h0, List.prefix_nil] at hp
    exact absurd hp (by simp [Edit.put])
  have hb : ((Edit.start s).applyAll (.put key value lease :: ops)).batches.length = 1 := by
    simp [Edit.batches, he]
  have := ha.revision
  rw [hb] at this
  exact this

/-! ## Keys on the way -/

theorem Leads.get?_since (h : s.Leads P s') {k : Bytes} (hk : ∀ e, P e → e.record.key ≠ k) {r : Int}
    (hf : s'.floor ≤ r) (hr : s.revision ≤ r) (hr' : r ≤ s'.revision) :
    (s'.asOf r).get? k = s.latest.get? k := by
  obtain ⟨_, bs, ha, hb⟩ := h
  have hrev := ha.revision
  obtain ⟨n, rfl⟩ : ∃ n : Nat, r = s.revision + n := ⟨(r - s.revision).toNat, by omega⟩
  rw [ha.since n (by omega) hf, Batch.foldl_applyTo]
  refine Event.get?_applyAll_of_ne (fun e he => ?_) _
  obtain ⟨b, hm, he⟩ := List.mem_flatMap.1 he
  exact hk e (hb b (List.mem_of_mem_take hm) e he)

theorem Leads.current_eq (h : s.Leads P s') {k : Bytes} (hk : ∀ e, P e → e.record.key ≠ k) :
    s'.current k = s.current k := by
  rw [← get?_latest, ← get?_latest, ← h.1.asOf_revision]
  exact h.get?_since hk h.1.floor_le h.revision_le (Int.le_refl _)

end Store

end Keyspace
