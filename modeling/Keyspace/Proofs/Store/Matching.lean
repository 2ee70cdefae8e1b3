import Keyspace.Proofs.Store.Transaction

/-!
# Stores that match

Two edits may differ in old points only (`Edit.Alike`), and two stores in anything but what is there now and the
leases (`Store.Matches`): in their past, their log and their feeds. Whatever writes or ends leases does the same
to both.
-/

namespace Keyspace

/-! ## Edits -/

namespace Edit

/-- Edits that differ in old points only. -/
structure Alike (e d : Edit) : Prop where
  draft : d.draft = e.draft
  leases : d.store.leases = e.store.leases

variable {e d : Edit}

theorem Alike.revision (h : e.Alike d) : d.revision = e.revision := congrArg Draft.revision h.draft

theorem Alike.events (h : e.Alike d) : d.events = e.events := congrArg Draft.events h.draft

theorem Alike.latest (h : e.Alike d) : d.store.latest = e.store.latest := congrArg Draft.view h.draft

theorem Alike.current (h : e.Alike d) (k : Bytes) : d.store.current k = e.store.current k := by
  rw [← Store.get?_latest, ← Store.get?_latest, h.latest]

theorem leases_unbind {s t : Store} (h : t.leases = s.leases) (lease : Int) (key : Bytes) :
    (unbind t lease key).leases = (unbind s lease key).leases := by
  unfold unbind
  rw [h]
  cases s.leases.get? lease with
  | none => exact h
  | some l => rfl

theorem leases_bind {s t : Store} (h : t.leases = s.leases) (lease : Int) (key : Bytes) :
    (bind t lease key).leases = (bind s lease key).leases := by
  unfold bind
  rw [h]
  cases s.leases.get? lease with
  | none => exact h
  | some l => rfl

theorem Alike.leases_released (h : e.Alike d) (key : Bytes) (keep : Int) :
    (released d.store key keep).leases = (released e.store key keep).leases := by
  unfold released
  rw [h.current]
  split
  · split
    · exact leases_unbind h.leases _ key
    · exact h.leases
  · exact h.leases

theorem Alike.leases_rebound (h : e.Alike d) (key : Bytes) (lease : Int) :
    (rebound d.store key lease).leases = (rebound e.store key lease).leases := by
  unfold rebound
  split
  · exact leases_bind (h.leases_released key lease) lease key
  · exact h.leases_released key lease

theorem Alike.put (h : e.Alike d) (key value : Bytes) (lease : Option Int) :
    (e.put key value lease).Alike (d.put key value lease) where
  draft := by rw [draft_put, draft_put, h.draft]
  leases := by
    rw [put_eq_write, put_eq_write]
    exact h.leases_rebound key _

theorem draft_remove_of_some {r : Record} {key : Bytes} (h : e.store.current key = some r) :
    (e.remove key).draft = { e.draft with
      view := e.draft.view.erase key
      events := e.draft.events ++ [⟨.delete, ⟨key, [], 0, e.draft.revision, 0, 0⟩⟩] } := by
  have hv : (e.remove key).store.latest = e.store.latest.erase key := by
    refine SortedMap.ext_get? fun k => ?_
    rw [Store.get?_latest, current_remove, SortedMap.get?_erase, Store.get?_latest]
  unfold draft
  rw [hv, events_remove h, revision_remove]

theorem Alike.remove (h : e.Alike d) (key : Bytes) : (e.remove key).Alike (d.remove key) := by
  have hd := h.current key
  cases he : e.store.current key with
  | none =>
    rw [he] at hd
    rwa [remove_of_absent he, remove_of_absent hd]
  | some r =>
    rw [he] at hd
    refine ⟨by rw [draft_remove_of_some he, draft_remove_of_some hd, h.draft], ?_⟩
    rw [remove_eq_write he, remove_eq_write hd]
    exact h.leases_released key 0

theorem Alike.removeAll (keys : List Bytes) : ∀ {e d : Edit}, e.Alike d →
    (keys.foldl Edit.remove e).Alike (keys.foldl Edit.remove d) := by
  induction keys with
  | nil => exact fun h => h
  | cons key keys ih => exact fun h => ih (h.remove key)

theorem Alike.applyAll (ops : List Op) : ∀ {e d : Edit}, e.Alike d → (e.applyAll ops).Alike (d.applyAll ops) := by
  induction ops with
  | nil => exact fun h => h
  | cons op ops ih =>
    intro e d h
    refine ih ?_
    cases op with
    | put key value lease => exact h.put key value lease
    | delete span =>
      show (e.delete span).Alike (d.delete span)
      rw [delete_eq_removeAll, delete_eq_removeAll, h.draft]
      exact h.removeAll _

end Edit

namespace Store

variable {s t u : Store}

theorem Sound.revoke? (h : s.Sound) (lease : Int) : ((s.revoke? lease).getD s).Sound := by
  cases hr : s.revoke? lease with
  | none => exact h
  | some u => exact (leads_revoke? h hr).1

/-- What is there now is the same in both stores, however it came about. -/
structure Matches (s t : Store) : Prop where
  revision : t.revision = s.revision
  latest : t.latest = s.latest
  leases : t.leases = s.leases
  nextLease : t.nextLease = s.nextLease

theorem Matches.refl (s : Store) : s.Matches s := ⟨rfl, rfl, rfl, rfl⟩

theorem Matches.of_eq (h : t = s) : s.Matches t := h ▸ .refl s

theorem Matches.symm (h : s.Matches t) : t.Matches s :=
  ⟨h.revision.symm, h.latest.symm, h.leases.symm, h.nextLease.symm⟩

theorem Matches.trans (h : s.Matches t) (h' : t.Matches u) : s.Matches u :=
  ⟨h'.revision.trans h.revision, h'.latest.trans h.latest, h'.leases.trans h.leases, h'.nextLease.trans h.nextLease⟩

/-! ## Commits -/

theorem Matches.start (h : s.Matches t) : (Edit.start s).Alike (Edit.start t) := by
  refine ⟨?_, h.leases⟩
  unfold Edit.draft Edit.start
  simp only [h.latest, h.revision]

theorem Matches.commit (h : s.Matches t) {e d : Edit} (he : e.Stands s) (hd : d.Stands t) (ha : e.Alike d) :
    e.commit.Matches d.commit := by
  by_cases hn : e.events = []
  · have hn' : d.events = [] := ha.events.trans hn
    rwa [Edit.commit_of_nil hn, Edit.commit_of_nil hn', he.unchanged hn, hd.unchanged hn']
  · have hn' : d.events ≠ [] := ha.events ▸ hn
    rw [he.commit_eq hn, hd.commit_eq hn']
    exact ⟨ha.revision, ha.latest, ha.leases, h.nextLease⟩

theorem Matches.revoke? (h : s.Matches t) (hs : s.Sound) (ht : t.Sound) (lease : Int) :
    (t.revoke? lease).isSome = (s.revoke? lease).isSome ∧
      ((s.revoke? lease).getD s).Matches ((t.revoke? lease).getD t) := by
  rw [revoke?_eq, revoke?_eq, h.leases]
  cases s.leases.get? lease with
  | none => exact ⟨rfl, h⟩
  | some l =>
    have he : ({ s with leases := s.leases.erase lease } : Store).Matches
        { t with leases := t.leases.erase lease } := { h with leases := by rw [h.leases] }
    exact ⟨rfl, he.commit (hs.stands_ending lease l) (ht.stands_ending lease l) (he.start.removeAll _)⟩

theorem Matches.endAll (leases : List Int) : ∀ {s t : Store}, s.Matches t → s.Sound → t.Sound →
    (s.endAll leases).Matches (t.endAll leases) := by
  induction leases with
  | nil => exact fun h _ _ => h
  | cons lease leases ih =>
    intro s t h hs ht
    exact ih (h.revoke? hs ht lease).2 (hs.revoke? lease) (ht.revoke? lease)

theorem Matches.expire (h : s.Matches t) (hs : s.Sound) (ht : t.Sound) (now : Nat) :
    (s.expire now).Matches (t.expire now) := by
  have hdue : t.due now = s.due now := by rw [due, due, h.leases]
  show (s.endAll (s.due now)).Matches (t.endAll (t.due now))
  rw [hdue]
  exact h.endAll _ hs ht

theorem Matches.missingLease? (h : s.Matches t) (ops : List Op) : t.missingLease? ops = s.missingLease? ops := by
  induction ops with
  | nil => rfl
  | cons op ops ih =>
    cases op with
    | delete span => exact ih
    | put key value lease =>
      cases lease with
      | none => exact ih
      | some l => simp only [Store.missingLease?, ih, h.leases]

theorem Matches.meets (h : s.Matches t) (x : Txn) : t.Meets x ↔ s.Meets x := by
  unfold Meets
  rw [h.latest]

theorem Matches.chosen (h : s.Matches t) (x : Txn) : t.chosen x = s.chosen x := by
  unfold Store.chosen
  simp only [h.meets]

/-- Transactions are answered alike by stores that match once the due leases have ended. -/
theorem Matches.txn {now : Nat} (h : (s.expire now).Matches (t.expire now)) (hs : s.Sound) (ht : t.Sound) (x : Txn) :
    (t.answer now (.txn x)).1 = (s.answer now (.txn x)).1 ∧
      (s.answer now (.txn x)).2.Matches (t.answer now (.txn x)).2 := by
  have hc : ((s.expire now).commit ((s.expire now).chosen x)).Matches
      ((t.expire now).commit ((s.expire now).chosen x)) :=
    h.commit ((leads_expire hs now).1.stands_applyAll _) ((leads_expire ht now).1.stands_applyAll _)
      (h.start.applyAll _)
  rw [answer_txn, answer_txn, h.chosen, h.missingLease?]
  cases (s.expire now).missingLease? ((s.expire now).chosen x) with
  | some l => exact ⟨rfl, h⟩
  | none => exact ⟨by simp only [hc.revision, h.meets], hc⟩

end Store

end Keyspace
