import Keyspace.Proofs.Lock.Exclusion

/-!
# Tenures

With every take of a guarded key written down, heard of or not, the record of the key is always that of a hold that
was taken (`Tenure.owned`). With every end of a lease written down no lease ends twice (`Tenure.once`), so a hold ends
with the one end of its lease.
-/

namespace Keyspace

/-! ## Ends -/

namespace Store

variable {s t : Store}

theorem endings_append (leases leases' : List Int) : ∀ s : Store,
    s.endings (leases ++ leases') = s.endings leases ++ (s.endAll leases).endings leases' := by
  induction leases with
  | nil => exact fun _ => rfl
  | cons lease leases ih =>
    intro s
    rw [List.cons_append, endings, endings, endAll_cons]
    cases s.revoke? lease with
    | none => exact ih s
    | some t => exact congrArg (_ :: ·) (ih t)

theorem isSome_of_revoke? {lease : Int} (h : s.revoke? lease = some t) : (s.leases.get? lease).isSome := by
  obtain ⟨l, hl, -⟩ := Option.map_eq_some_iff.1 h
  rw [hl]
  rfl

theorem ending_of_answer {now : Nat} {lease : Int} (h : (s.answer now (.leaseRevoke lease)).1 = .ok ()) :
    ⟨lease, s.expire now, (s.answer now (.leaseRevoke lease)).2⟩ ∈ s.endings (s.ends now (.leaseRevoke lease)) := by
  have hends : s.endings (s.ends now (.leaseRevoke lease)) =
      s.endings (s.due now) ++ (s.expire now).endings [lease] := endings_append ..
  rw [hends]
  simp only [answer] at h ⊢
  cases hr : (s.expire now).revoke? lease with
  | none =>
    rw [hr] at h
    cases h
  | some t =>
    simp only [endings, hr]
    exact List.mem_append_right _ List.mem_cons_self

theorem missingLease?_put {lease : Int} (h : (s.leases.get? lease).isSome) (k value : Bytes) :
    s.missingLease? [.put k value (some lease)] = none := by
  show (if lease ≠ 0 && !s.leases.contains lease then some lease else none) = none
  rw [SortedMap.contains_eq_isSome, h]
  simp

end Store

theorem Ending.Deletes.eq_succ {e : Ending} {k : Bytes} {revision : Int} (h : e.Deletes k revision)
    (hs : e.before.Sound) : revision = e.before.revision + 1 := by
  obtain ⟨r, hr, -⟩ := h.bound
  rcases Store.revoke?_cases hs h.ends k with hl | ⟨-, -, hrev⟩
  · rw [← hl.current_eq fun _ he => he, h.gone] at hr
    cases hr
  · exact h.after_eq.symm.trans hrev

structure Tenure (k : Bytes) (taken : List Hold) (ended : List Ending) (s : Store) : Prop
    extends Guarded k taken ended s where
  /-- The record is that of a hold. -/
  owned : ∀ y, s.current k = some y → ⟨y.lease, y.modRevision⟩ ∈ taken
  once : ended.Pairwise fun e e' => e.lease ≠ e'.lease
  past : ∀ e ∈ ended, s.leases.get? e.lease = none ∧ e.lease < s.nextLease

namespace Tenure

variable {k : Bytes} {taken : List Hold} {ended : List Ending} {s t : Store}

theorem ofMembers (names : List String) : Tenure k [] [] (.ofMembers names) :=
  ⟨.ofMembers names, nofun, .nil, List.forall_mem_nil _⟩

theorem current (h : Tenure k taken ended s) {y : Record} (hy : s.current k = some y) : y.lease ≠ 0 ∧ y.NamesLease := by
  refine h.locks s.revision h.sound.floor_le (Int.le_refl _) y ?_
  rw [h.sound.asOf_revision, Store.get?_latest, hy]

theorem elsewhere (h : Tenure k taken ended s) {P : Event → Prop} (hl : s.Leads P t)
    (hk : ∀ e, P e → e.record.key ≠ k) : Tenure k taken ended t where
  toGuarded := h.toGuarded.elsewhere hl hk fun _ he => he
  owned y hy := h.owned y (hl.current_eq hk ▸ hy)
  once := h.once
  past e he := hl.gone (h.past e he).1 (h.past e he).2

theorem ending (h : Tenure k taken ended s) {lease : Int} (hr : s.revoke? lease = some t) :
    Tenure k taken (ended ++ [⟨lease, s, t⟩]) t where
  toGuarded := h.toGuarded.ending hr
  owned y hy := by
    rcases Store.revoke?_cases h.sound hr k with hl | ⟨-, hgone, -⟩
    · exact h.owned y (hl.current_eq (fun _ he => he) ▸ hy)
    · cases hgone.symm.trans hy
  once := by
    refine List.pairwise_append.2 ⟨h.once, List.pairwise_singleton _ _, fun e he e' he' heq => ?_⟩
    have hlive := Store.isSome_of_revoke? hr
    cases List.mem_singleton.1 he'
    have hgone := (h.past e he).1
    rw [show e.lease = lease from heq] at hgone
    rw [hgone] at hlive
    cases hlive
  past := by
    have hl := Store.leads_revoke? h.sound hr
    refine List.forall_mem_append.2 ⟨fun e he => hl.gone (h.past e he).1 (h.past e he).2,
      List.forall_mem_singleton.2 ⟨Store.get?_leases_revoke? h.sound hr, ?_⟩⟩
    exact Int.lt_of_lt_of_le (h.sound.leased lease (Store.isSome_of_revoke? hr)).2 hl.nextLease_le

theorem endAll (h : Tenure k taken ended s) (leases : List Int) :
    Tenure k taken (ended ++ s.endings leases) (s.endAll leases) :=
  Store.endings_inv (I := fun es s => Tenure k taken es s) (fun h hr => h.ending hr) leases h

theorem take (h : Tenure k taken ended s) (ha : s.current k = none) {l : Lock} (hl : l.lease ≠ 0)
    (hm : s.missingLease? [.put k l.toBytes (some l.lease)] = none) :
    Tenure k (taken ++ [⟨l.lease, s.revision + 1⟩]) ended (s.commit [.put k l.toBytes (some l.lease)]) where
  toGuarded := (h.toGuarded.take ha hl hm).2
  owned y hy := by
    obtain ⟨z, hz, hlease, hrev, -⟩ := s.current_take k l
    cases hz.symm.trans hy
    exact List.mem_append_right _ (List.mem_singleton.2 (by rw [hlease, hrev]))
  once := h.once
  past e he := (Store.leads_commit h.sound _).gone (h.past e he).1 (h.past e he).2

theorem answer (h : Tenure k taken ended s) (now : Nat) {c : Call} (hv : c.Vies k) :
    Tenure k (taken ++ (c.gains? k (s.answer now c).1).toList) (ended ++ s.endings (s.ends now c))
      (s.answer now c).2 := by
  rcases hv with hw | ⟨r, l, rfl, hl, rfl⟩
  · rw [Call.gains?_of_not_writes hw, Option.toList_none, List.append_nil]
    refine (h.endAll _).elsewhere (Store.leads_answer_of_ends h.sound now c) fun e he hek => hw ?_
    rwa [hek] at he
  · have hx : Tenure (Utf8.encode r.key) taken (ended ++ s.endings (s.due now)) (s.expire now) := h.endAll (s.due now)
    rw [Store.answer_take h.sound now r hl]
    show Tenure _ _ (ended ++ s.endings (s.due now)) _
    generalize s.expire now = x at *
    have hgains : ∀ a : (Call.txn (r.txn l)).Answer,
        (Call.gains? (Utf8.encode r.key) (.txn (r.txn l)) (.ok a)).toList =
          if a.succeeded = true then [⟨l.lease, a.revision⟩] else [] := fun a => by
      rw [r.gains?_txn]
      split <;> rfl
    -- A free key is taken only while the lease is still there, once all that is due has ended.
    by_cases hfree : r.FreeIn x
    · by_cases hlive : (x.leases.get? l.lease).isSome
      · have htake := hx.take hfree.1 hl (Store.missingLease?_put hlive ..)
        rw [if_pos hfree, if_pos hlive]
        exact hgains ⟨true, x.revision + 1⟩ ▸ htake
      · rw [if_pos hfree, if_neg hlive, Call.gains?_error, Option.toList_none, List.append_nil]
        exact hx
    · have hkeep : Tenure (Utf8.encode r.key) (taken ++ []) (ended ++ s.endings (s.due now)) x := by
        rwa [List.append_nil]
      rw [if_neg hfree]
      exact hgains ⟨false, x.revision⟩ ▸ hkeep

/-- A lease ends once. -/
theorem eq_of_lease_eq (h : Tenure k taken ended s) {d e : Ending} (hd : d ∈ ended) (he : e ∈ ended)
    (heq : d.lease = e.lease) : d = e := List.inj_on_of_nodup_map (List.pairwise_map.2 h.once) hd he heq

/-- A hold whose lease has ended has ended with it. -/
theorem deletes (h : Tenure k taken ended s) (hb : s.BindsAll) {d : Hold} (hd : d ∈ taken) {e : Ending}
    (he : e ∈ ended) (hl : e.lease = d.lease) : ∃ revision, e.Deletes k revision := by
  rcases h.stands d hd with hlasts | ⟨e', r, ho⟩
  · obtain ⟨y, hy, hlease, -⟩ := hlasts.current h.sound
    obtain ⟨l, hlive, -⟩ := hb k y hy (h.current hy).1
    rw [hlease, ← hl, (h.past e he).1] at hlive
    cases hlive
  · rw [h.eq_of_lease_eq he ho.mem (hl.trans ho.lease.symm)]
    exact ⟨r, ho.deletes⟩

end Tenure

/-! ## Ground -/

theorem Backend.ends_of_ok {b : Backend} {now : Nat} {c : Call} {a : c.Answer} (h : (b.answer now c).1 = .ok a) :
    b.ends now (.call c) = b.store.ends now c := by
  cases hf : meetFault c.name b.faults with
  | none =>
    simp only [ends, hf]
    rfl
  | some rule =>
    obtain ⟨⟨k, hk⟩, -⟩ := answer_of_faulted (b := b) (c := c) now (by rw [hf]; rfl)
    cases hk.symm.trans h

namespace Ground

/-- What a call takes in a turn, whatever is heard of it. -/
def takes? (k : Bytes) (t : Turn) (c : Call) (g : Ground) : Option Hold :=
  match t.fate with
  | .lost _ => none
  | .answered | .unheard _ => c.gains? k (g.backend.answer t.now c).1

def Tenure (k : Bytes) (taken : List Hold) (g : Ground) : Prop := Keyspace.Tenure k taken g.ended g.backend.store

variable {k : Bytes} {taken : List Hold} {g : Ground} {c : Call}

theorem serve_eq (t : Turn) (c : Call) (g : Ground) :
    (g.serve t c).1 = (g.backend.serve t c).1 ∧ (g.serve t c).2.backend = (g.backend.serve t c).2 := by
  unfold serve Backend.serve
  cases t.fate <;> exact ⟨rfl, rfl⟩

theorem ended_serve (t : Turn) (c : Call) (g : Ground) : g.ended ⊆ (g.serve t c).2.ended := by
  unfold serve
  cases t.fate with
  | lost f => exact fun _ h => h
  | answered | unheard f => exact List.subset_append_left ..

theorem takes?_of_gains? {t : Turn} {d : Hold} (h : c.gains? k (g.serve t c).1 = some d) : g.takes? k t c = some d := by
  unfold serve at h
  unfold takes?
  cases ht : t.fate with
  | answered =>
    rw [ht] at h
    exact h
  | unheard f | lost f =>
    rw [ht] at h
    cases (Call.gains?_error c f).symm.trans h

theorem Tenure.move (h : g.Tenure k taken) (now : Nat) {m : Move} (hm : ¬ m.Writes k) :
    (g.move now m).Tenure k taken := by
  refine (h.endAll _).elsewhere (Backend.leads_move_of_ends h.sound now m) fun e he hek => hm ?_
  rwa [hek] at he

theorem Tenure.call (h : g.Tenure k taken) (now : Nat) (hv : c.Vies k) :
    (g.move now (.call c)).Tenure k (taken ++ (c.gains? k (g.backend.answer now c).1).toList) := by
  unfold Tenure Ground.move Backend.move Backend.ends
  simp only [Backend.answer]
  cases hf : Backend.meetFault c.name g.backend.faults with
  | none => exact Keyspace.Tenure.answer h now hv
  | some rule =>
    simp only [Call.gains?_error, Option.toList_none, List.append_nil, Option.isSome_some, if_true]
    show Keyspace.Tenure k taken (g.ended ++ []) g.backend.store
    rw [List.append_nil]
    exact h

theorem Tenure.serve (h : g.Tenure k taken) (t : Turn) (hv : c.Vies k) :
    (g.serve t c).2.Tenure k (taken ++ (g.takes? k t c).toList) := by
  unfold Ground.serve takes?
  cases t.fate with
  | lost f =>
    simp only [Option.toList_none, List.append_nil]
    exact h
  | answered | unheard f => exact h.call t.now hv

/-- An end that is heard of is written down. -/
theorem mem_ended_of_serve {t : Turn} {lease : Int} (h : (g.serve t (.leaseRevoke lease)).1 = .ok ()) :
    ⟨lease, g.backend.store.expire t.now, (g.backend.store.answer t.now (.leaseRevoke lease)).2⟩ ∈
      (g.serve t (.leaseRevoke lease)).2.ended := by
  unfold serve at h ⊢
  cases hfate : t.fate with
  | unheard f | lost f =>
    rw [hfate] at h
    cases h
  | answered =>
    rw [hfate] at h
    refine List.mem_append_right _ ?_
    rw [Backend.ends_of_ok h]
    exact Store.ending_of_answer (Backend.store_answer_of_ok h).1

end Ground

end Keyspace
