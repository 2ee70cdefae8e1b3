import Keyspace.Proofs.Store.Commit

/-!
# Leases that ended

Leases end one after the other, by a revocation or because they are due, and an end takes a key along
or is not seen there (`revoke?_cases`). What each end keeps, all of them keep, with an account of the
ends so far (`endings_inv`).
-/

namespace Keyspace

/-- The end of a lease, with the stores before and after. -/
structure Ending where
  lease : Int
  before : Store
  after : Store

/-- The key was bound to the lease, and is gone from a revision on. -/
structure Ending.Deletes (e : Ending) (k : Bytes) (revision : Int) : Prop where
  ends : e.before.revoke? e.lease = some e.after
  bound : ∃ r, e.before.current k = some r ∧ r.lease = e.lease
  gone : e.after.current k = none
  before_lt : e.before.revision < revision
  after_eq : e.after.revision = revision

namespace Store

variable {s t : Store}

def endings (s : Store) : List Int → List Ending
  | [] => []
  | lease :: leases =>
    match s.revoke? lease with
    | none => s.endings leases
    | some t => ⟨lease, s, t⟩ :: t.endings leases

theorem endings_inv {I : List Ending → Store → Prop}
    (h : ∀ {es s lease t}, I es s → s.revoke? lease = some t → I (es ++ [⟨lease, s, t⟩]) t) (leases : List Int) :
    ∀ {es s}, I es s → I (es ++ s.endings leases) (s.endAll leases) := by
  induction leases with
  | nil =>
    intro es s hI
    rw [endings, List.append_nil]
    exact hI
  | cons lease leases ih =>
    intro es s hI
    rw [endings, endAll_cons]
    cases hr : s.revoke? lease with
    | none => exact ih hI
    | some t =>
      have ht := ih (h hI hr)
      rwa [List.append_assoc] at ht

theorem get?_leases_revoke? (h : s.Sound) {lease : Int} (hr : s.revoke? lease = some t) :
    t.leases.get? lease = none := by
  rw [revoke?_eq] at hr
  obtain ⟨l, _, rfl⟩ := Option.map_eq_some_iff.1 hr
  have hl := (h.stands_ending lease l).live lease
  rw [SortedMap.get?_erase, if_pos rfl] at hl
  rw [Edit.leases_commit]
  simpa using hl

/-- The end of a lease takes a key along that is bound to it, or nothing happens at the key. -/
theorem revoke?_cases (h : s.Sound) {lease : Int} (hr : s.revoke? lease = some t) (k : Bytes) :
    s.Leads (fun e => e.record.key ≠ k) t ∨
      (∃ r, s.current k = some r ∧ r.lease = lease) ∧ t.current k = none ∧ t.revision = s.revision + 1 := by
  rw [revoke?_eq] at hr
  obtain ⟨l, hl, rfl⟩ := Option.map_eq_some_iff.1 hr
  obtain ⟨hs, ha⟩ := h.erase_lease lease
  have he := h.stands_ending lease l
  by_cases hk : k ∈ l.keys.keys
  · right
    have hbound := h.binds lease k ⟨l, hl, (SortedMap.mem_keys_iff _ _).1 hk⟩
    have hgone : (s.ending lease l).store.current k = none := by
      unfold ending
      rw [Edit.current_removeAll, if_pos hk]
    have hev : (s.ending lease l).events ≠ [] := by
      intro h0
      obtain ⟨r, hc, _⟩ := hbound
      rw [he.unchanged h0] at hgone
      rw [show ({ s with leases := s.leases.erase lease } : Store).current k = s.current k from rfl, hc] at hgone
      cases hgone
    refine ⟨hbound, ?_, ?_⟩
    · rw [Store.current, Edit.histories_commit]
      exact hgone
    · have hrev := (he.advances hs).revision
      have hb : (s.ending lease l).batches.length = 1 := by simp [Edit.batches, hev]
      rw [hb] at hrev
      exact hrev
  · left
    obtain ⟨hs', bs, hb, hP⟩ := he.leads hs (P := fun e => e.record.key ≠ k) fun ev hev => by
      rcases Edit.mem_events_removeAll _ hev with hev | ⟨_, hm⟩
      · cases hev
      · exact fun h => hk (h ▸ hm)
    exact ⟨hs', [] ++ bs, ha.trans hb, hP⟩

/-! ## Views after a way -/

variable {P : Event → Prop}

theorem Leads.get?_asOf_min (h : s.Leads P t) (hs : s.Sound) {k : Bytes} (hk : ∀ e, P e → e.record.key ≠ k)
    {r : Int} (hf : t.floor ≤ r) (hr : r ≤ t.revision) : (t.asOf r).get? k = (s.asOf (min r s.revision)).get? k := by
  by_cases hle : r ≤ s.revision
  · rw [Int.min_eq_left hle, h.past hf hle]
  · rw [Int.min_eq_right (by omega), h.get?_since hk hf (by omega) hr, hs.asOf_revision]

theorem Leads.gone (h : s.Leads P t) {lease : Int} (hl : s.leases.get? lease = none) (hn : lease < s.nextLease) :
    t.leases.get? lease = none ∧ lease < t.nextLease := by
  obtain ⟨_, bs, ha, _⟩ := h
  have hn' := ha.nextLease
  refine ⟨?_, by omega⟩
  rw [← Option.not_isSome_iff_eq_none]
  intro hs
  rcases ha.leased lease hs with hs | hs
  · rw [hl] at hs
    cases hs
  · omega

end Store

end Keyspace
