import Keyspace.Proofs.Run.Move
import Keyspace.Proofs.Store.Transaction

/-!
# Ways of a backend

A relation between two stores and what was committed from the one to the other holds of every move of a backend, if
ways that are put together have it, ways without events have it, and so has every commit (`Way.move`). The end of a
lease is such a commit, once the lease is forgotten (`Edit.removeAll_eq_applyAll`).
-/

namespace Keyspace

theorem Edit.delete_single (e : Edit) (key : Bytes) : e.delete (.single key) = e.remove key := by
  have hkeys : e.store.keysIn (.single key) = if e.store.histories.contains key then [key] else [] := rfl
  unfold delete
  rw [hkeys]
  split
  · rfl
  · rename_i h
    have hnone : e.store.histories.get? key = none := by
      rw [SortedMap.contains_iff, SortedMap.mem_keys_iff] at h
      simpa using h
    have hcurrent : e.store.current key = none := by
      rw [Store.current, hnone]
      rfl
    exact (remove_of_absent hcurrent).symm

theorem Edit.removeAll_eq_applyAll (keys : List Bytes) : ∀ e : Edit,
    keys.foldl remove e = e.applyAll (keys.map fun k => .delete (.single k)) := by
  induction keys with
  | nil => exact fun _ => rfl
  | cons key keys ih =>
    intro e
    rw [List.foldl_cons, ih, ← e.delete_single key]
    rfl

structure Store.Way (C : Store → List Batch → Store → Prop) : Prop where
  trans : ∀ {s t u bs bs'}, C s bs t → C t bs' u → C s (bs ++ bs') u
  silent : ∀ {s t}, s.Leads (fun _ => False) t → ∃ bs, C s bs t
  commit : ∀ {s}, s.Sound → ∀ ops, C s ((Edit.start s).applyAll ops).batches (s.commit ops)

namespace Store.Way

variable {C : Store → List Batch → Store → Prop}

theorem endAll (hC : Way C) (leases : List Int) : ∀ {s : Store}, s.Sound → ∃ bs, C s bs (s.endAll leases) := by
  induction leases with
  | nil => exact fun h => hC.silent (.refl h)
  | cons lease leases ih =>
    intro s h
    rw [endAll_cons]
    cases hr : s.revoke? lease with
    | none => exact ih h
    | some t =>
      obtain ⟨bs, hbs⟩ := ih (leads_revoke? h hr).1
      rw [revoke?_eq] at hr
      obtain ⟨l, _, rfl⟩ := Option.map_eq_some_iff.1 hr
      obtain ⟨hs, ha⟩ := h.erase_lease lease
      obtain ⟨none, hnone⟩ := hC.silent ⟨hs, [], ha, List.forall_mem_nil _⟩
      have hcommit := hC.commit hs (l.keys.keys.map fun k => .delete (.single k))
      have hending : (s.ending lease l).commit =
          ({ s with leases := s.leases.erase lease } : Store).commit (l.keys.keys.map fun k => .delete (.single k)) := by
        rw [ending, Edit.removeAll_eq_applyAll]
        rfl
      rw [← hending] at hcommit
      exact ⟨_, hC.trans (hC.trans hnone hcommit) hbs⟩

theorem txn (hC : Way C) {s : Store} (h : s.Sound) (now : Nat) (t : Txn) :
    ∃ bs, C s bs (s.answer now (.txn t)).2 := by
  have hx : (s.expire now).Sound := (leads_expire h now).1
  obtain ⟨bs, hbs⟩ : ∃ bs, C s bs (s.expire now) := hC.endAll _ h
  rw [answer_txn]
  split
  · exact ⟨bs, hbs⟩
  · exact ⟨_, hC.trans hbs (hC.commit hx _)⟩

theorem answer (hC : Way C) {s : Store} (h : s.Sound) (now : Nat) (c : Call) :
    ∃ bs, C s bs (s.answer now c).2 := by
  have silent : (∀ k, ¬ c.Writes k) → ∃ bs, C s bs (s.answer now c).2 := by
    intro hc
    obtain ⟨bs, hbs⟩ := hC.endAll (s.ends now c) h
    obtain ⟨bs', hbs'⟩ := hC.silent ((leads_answer_of_ends h now c).mono fun e he => hc _ he)
    exact ⟨bs ++ bs', hC.trans hbs hbs'⟩
  cases c with
  | put key value lease =>
    rw [answer_put]
    exact hC.txn h now _
  | deleteRange span =>
    rw [answer_delete]
    exact hC.txn h now _
  | txn t => exact hC.txn h now t
  | _ => exact silent fun _ hk => hk

theorem move (hC : Way C) {b : Backend} (h : b.store.Sound) (now : Nat) (m : Move) :
    ∃ bs, C b.store bs (b.move now m).store := by
  have silent : (∀ k, ¬ m.Writes k) → ∃ bs, C b.store bs (b.move now m).store := by
    intro hm
    obtain ⟨bs, hbs⟩ := hC.endAll (b.ends now m) h
    obtain ⟨bs', hbs'⟩ := hC.silent ((Backend.leads_move_of_ends h now m).mono fun e he => hm _ he)
    exact ⟨bs ++ bs', hC.trans hbs hbs'⟩
  cases m with
  | call c =>
    show ∃ bs, C b.store bs (b.answer now c).2.store
    rcases b.answer_cases now c with ⟨_, hs⟩ | ⟨_, hs⟩
    · rw [hs]
      exact hC.silent (.refl h)
    · rw [hs]
      exact hC.answer h now c
  | _ => exact silent fun _ hk => hk

end Store.Way

end Keyspace
