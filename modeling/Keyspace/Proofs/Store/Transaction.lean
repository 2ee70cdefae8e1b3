import Keyspace.Proofs.Run.Move
import Keyspace.Proofs.Store.Draft

/-!
# Writes

A call that writes first ends the leases that are due and then commits, at one revision and as one batch, what
its operations do to a plain map, or it commits nothing (`writes_refine_map`).
-/

namespace Keyspace

/-- A put that is to be bound to a lease which is not there. -/
def Op.NamesMissing (s : Store) (op : Op) (lease : Int) : Prop :=
  lease ≠ 0 ∧ s.leases.get? lease = none ∧ ∃ key value, op = .put key value (some lease)

namespace Store

variable {s : Store}

/-- The latest view, to be rewritten at the next revision. -/
def draft (s : Store) : Draft := ⟨s.revision + 1, s.latest, []⟩

/-- What operations make of a store when they are committed. -/
structure Commits (s : Store) (ops : List Op) (s' : Store) : Prop where
  latest : s'.latest = (s.draft.applyAll ops).view
  revision : s'.revision = if (s.draft.applyAll ops).events = [] then s.revision else s.revision + 1
  log : s'.log = s.log ++
    if (s.draft.applyAll ops).events = [] then [] else [⟨s.revision + 1, (s.draft.applyAll ops).events⟩]
  stamped : ∀ e ∈ (s.draft.applyAll ops).events, e.record.modRevision = s.revision + 1
  written : ∀ k, ∃ new : History, (s'.histories.get? k).getD [] = new ++ (s.histories.get? k).getD [] ∧
    ∀ p ∈ new, p.revision = s.revision + 1 ∧ ∀ r, p.record = some r → r.modRevision = s.revision + 1

theorem commits_of_draft {e : Edit} {ops : List Op} (hs : e.Stands s) (hg : e.Grows s)
    (hd : e.draft = s.draft.applyAll ops) : s.Commits ops e.commit := by
  have hev : (s.draft.applyAll ops).events = e.events := congrArg Draft.events hd.symm
  have hrev := hs.revision
  have hlog : e.store.log = s.log := by rw [hs.frame]
  have hsrev : e.store.revision = s.revision := by rw [hs.frame]
  refine ⟨?_, ?_, ?_, ?_, ?_⟩
  · rw [← hd]
    unfold Store.latest
    rw [Edit.histories_commit]
    rfl
  · rw [hev, ← hrev, ← hsrev, Edit.revision_commit]
  · rw [hev, ← hrev, ← hlog, Edit.log_commit]
  · exact Draft.stamped_applyAll ops (d := s.draft) fun _ he => (List.not_mem_nil he).elim
  · intro k
    rw [Edit.histories_commit, ← hrev]
    exact hg k

theorem commits_commit (h : s.Sound) (ops : List Op) : s.Commits ops (s.commit ops) :=
  commits_of_draft (h.stands_applyAll ops) (.applyAll ops (Edit.grows_start s)) (Edit.draft_applyAll ops _)

theorem missingLease?_eq_some {l : Int} : ∀ {ops : List Op}, s.missingLease? ops = some l →
    ∃ op ∈ ops, op.NamesMissing s l := by
  intro ops
  induction ops with
  | nil => exact nofun
  | cons op ops ih =>
    intro h
    have later : s.missingLease? ops = some l → ∃ o ∈ op :: ops, o.NamesMissing s l := by
      intro h
      obtain ⟨o, ho, hn⟩ := ih h
      exact ⟨o, List.mem_cons_of_mem _ ho, hn⟩
    cases op with
    | delete span => exact later h
    | put key value lease =>
      cases lease with
      | none => exact later h
      | some m =>
        simp only [missingLease?] at h
        split at h
        · rename_i hm
          cases h
          simp only [Bool.and_eq_true, Bool.not_eq_true', decide_eq_true_eq, SortedMap.contains_eq_isSome,
            Option.isSome_eq_false_iff, Option.isNone_iff_eq_none] at hm
          exact ⟨_, List.mem_cons_self, hm.1, hm.2, key, value, rfl⟩
        · exact later h

theorem missingLease?_eq_none {ops : List Op} (h : s.missingLease? ops = none) :
    ∀ op ∈ ops, ∀ l, ¬ op.NamesMissing s l := by
  induction ops with
  | nil => exact nofun
  | cons op ops ih =>
    have later : s.missingLease? ops = none → (∀ l, ¬ op.NamesMissing s l) →
        ∀ o ∈ op :: ops, ∀ l, ¬ o.NamesMissing s l := by
      intro h hop o ho
      rcases List.mem_cons.1 ho with rfl | ho
      · exact hop
      · exact ih h o ho
    cases op with
    | delete span => exact later h fun l ⟨_, _, _, _, ho⟩ => nomatch ho
    | put key value lease =>
      cases lease with
      | none => exact later h fun l ⟨_, _, _, _, ho⟩ => nomatch ho
      | some m =>
        simp only [missingLease?] at h
        split at h
        · cases h
        · rename_i hm
          refine later h fun l ⟨h0, hl, _, _, ho⟩ => hm ?_
          cases ho
          simp [h0, SortedMap.contains_eq_isSome, hl]

/-! ## Transactions -/

def Meets (s : Store) (t : Txn) : Prop := ∀ c ∈ t.conditions, c.holds (s.latest.get? c.key) = true

instance (s : Store) (t : Txn) : Decidable (s.Meets t) := inferInstanceAs (Decidable (∀ c ∈ t.conditions, _))

def chosen (s : Store) (t : Txn) : List Op := if s.Meets t then t.success else t.failure

/-- What a transaction makes of a store whose leases are not due, and what it answers. -/
structure Transacts (s : Store) (t : Txn) (r : Outcome TxnAnswer) (s' : Store) : Prop where
  refused : (∃ op ∈ s.chosen t, ∃ l, op.NamesMissing s l) →
    (∃ l, (∃ op ∈ s.chosen t, op.NamesMissing s l) ∧ r = .error (.leaseNotFound l)) ∧ s' = s
  committed : (∀ op ∈ s.chosen t, ∀ l, ¬ op.NamesMissing s l) →
    r = .ok ⟨decide (s.Meets t), s'.revision⟩ ∧ s.Commits (s.chosen t) s'

theorem satisfies_eq (s : Store) (t : Txn) : s.satisfies t.conditions = decide (s.Meets t) := by
  rw [Bool.eq_iff_iff, satisfies, List.all_eq_true, decide_eq_true_eq]
  unfold Meets
  simp only [get?_latest]

theorem answer_txn (s : Store) (now : Nat) (t : Txn) :
    s.answer now (.txn t) =
      match (s.expire now).missingLease? ((s.expire now).chosen t) with
      | some l => (.error (.leaseNotFound l), s.expire now)
      | none => (.ok ⟨decide ((s.expire now).Meets t), ((s.expire now).commit ((s.expire now).chosen t)).revision⟩,
          (s.expire now).commit ((s.expire now).chosen t)) := by
  have hops : (if (s.expire now).satisfies t.conditions then t.success else t.failure) =
      (s.expire now).chosen t := by
    rw [satisfies_eq]
    simp [chosen]
  simp only [answer]
  rw [hops, satisfies_eq, commit?]
  cases (s.expire now).missingLease? ((s.expire now).chosen t) <;> rfl

theorem transacts_answer (h : s.Sound) (now : Nat) (t : Txn) :
    (s.expire now).Transacts t (s.answer now (.txn t)).1 (s.answer now (.txn t)).2 := by
  have hx : (s.expire now).Sound := (leads_expire h now).1
  rw [answer_txn]
  cases hm : (s.expire now).missingLease? ((s.expire now).chosen t) with
  | some l =>
    obtain ⟨op, ho, hn⟩ := missingLease?_eq_some hm
    exact ⟨fun _ => ⟨⟨l, ⟨op, ho, hn⟩, rfl⟩, rfl⟩, fun hnone => absurd hn (hnone op ho l)⟩
  | none =>
    refine ⟨fun ⟨op, ho, l, hn⟩ => absurd hn (missingLease?_eq_none hm op ho l), fun _ => ⟨rfl, ?_⟩⟩
    exact commits_commit hx _

/-! ## Single operations -/

theorem chosen_always (s : Store) (ops : List Op) : s.chosen (.always ops) = ops :=
  if_pos fun _ h => nomatch h

theorem answer_put (s : Store) (now : Nat) (key value : Bytes) (lease : Option Int) :
    s.answer now (.put key value lease) =
      ((s.answer now (.txn (.always [.put key value lease]))).1.map (·.revision),
        (s.answer now (.txn (.always [.put key value lease]))).2) := by
  rw [answer_txn, chosen_always]
  simp only [answer, commit?]
  cases (s.expire now).missingLease? [.put key value lease] <;> rfl

theorem answer_delete (s : Store) (now : Nat) (span : Span) :
    s.answer now (.deleteRange span) =
      ((s.answer now (.txn (.always [.delete span]))).1.map fun a =>
          ⟨a.revision, (((s.expire now).latest.filter fun k _ => span.contains k).size : Int)⟩,
        (s.answer now (.txn (.always [.delete span]))).2) := by
  have hev : ((Edit.start (s.expire now)).delete span).events.length =
      ((s.expire now).latest.filter fun k _ => span.contains k).size := by
    have hd := congrArg Draft.events ((Edit.start (s.expire now)).draft_delete span)
    have hd : ((Edit.start (s.expire now)).delete span).events = _ := hd
    rw [hd]
    simp [Draft.delete, Edit.draft, Edit.start, Draft.present, SortedMap.keys, SortedMap.size]
  rw [answer_txn, chosen_always]
  simp only [answer, hev]
  rfl

theorem answer_txn_error {s : Store} {now : Nat} {t : Txn} {f : Failure} (h : (s.answer now (.txn t)).1 = .error f) :
    (s.answer now (.txn t)).2 = s.expire now := by
  rw [answer_txn] at h ⊢
  cases hm : (s.expire now).missingLease? ((s.expire now).chosen t) with
  | some l => rfl
  | none =>
    rw [hm] at h
    cases h

end Store

namespace Backend

/-- What calls that write do to a backend. -/
structure Transactional (b : Backend) (now : Nat) : Prop where
  faulted : ∀ c : Call, (meetFault c.name b.faults).isSome →
    (∃ k : FaultKind, (b.answer now c).1 = .error k.failure) ∧ (b.answer now c).2.store = b.store
  unfaulted : ∀ c : Call, meetFault c.name b.faults = none →
    (b.answer now c).1 = (b.store.answer now c).1 ∧ (b.answer now c).2.store = (b.store.answer now c).2
  txn : ∀ t, (b.store.expire now).Transacts t (b.store.answer now (.txn t)).1 (b.store.answer now (.txn t)).2
  put : ∀ key value lease, b.store.answer now (.put key value lease) =
    ((b.store.answer now (.txn (.always [.put key value lease]))).1.map (·.revision),
      (b.store.answer now (.txn (.always [.put key value lease]))).2)
  delete : ∀ span, b.store.answer now (.deleteRange span) =
    ((b.store.answer now (.txn (.always [.delete span]))).1.map fun a =>
        ⟨a.revision, (((b.store.expire now).latest.filter fun k _ => span.contains k).size : Int)⟩,
      (b.store.answer now (.txn (.always [.delete span]))).2)
  /-- A write that fails changes nothing but that the leases end that are due. -/
  failed : ∀ c : Call, c.name = .put ∨ c.name = .deleteRange ∨ c.name = .txn → ∀ f, (b.answer now c).1 = .error f →
    (b.answer now c).2.store = b.store ∨ (b.answer now c).2.store = b.store.expire now

theorem answer_of_unfaulted {b : Backend} (now : Nat) {c : Call} (h : meetFault c.name b.faults = none) :
    (b.answer now c).1 = (b.store.answer now c).1 ∧ (b.answer now c).2.store = (b.store.answer now c).2 := by
  simp [answer, h]

theorem answer_of_faulted {b : Backend} (now : Nat) {c : Call} (h : (meetFault c.name b.faults).isSome) :
    (∃ k : FaultKind, (b.answer now c).1 = .error k.failure) ∧ (b.answer now c).2.store = b.store := by
  obtain ⟨⟨k, rules⟩, hk⟩ := Option.isSome_iff_exists.1 h
  refine ⟨⟨k, ?_⟩, ?_⟩ <;> simp [answer, hk]

theorem store_answer_write_error {b : Backend} {now : Nat} {c : Call}
    (hc : c.name = .put ∨ c.name = .deleteRange ∨ c.name = .txn) {f : Failure}
    (h : (b.store.answer now c).1 = .error f) : (b.store.answer now c).2 = b.store.expire now := by
  have one : ∀ {α : Type} {g : TxnAnswer → α} {t : Txn},
      (b.store.answer now (.txn t)).1.map g = .error f → (b.store.answer now (.txn t)).2 = b.store.expire now := by
    intro α g t hm
    cases hr : (b.store.answer now (.txn t)).1 with
    | error e => exact Store.answer_txn_error hr
    | ok a =>
      rw [hr] at hm
      cases hm
  cases c with
  | put key value lease =>
    rw [Store.answer_put] at h ⊢
    simp only at h
    exact one h
  | deleteRange span =>
    rw [Store.answer_delete] at h ⊢
    simp only at h
    exact one h
  | txn t => exact Store.answer_txn_error h
  | _ => simp [Call.name] at hc

/-- Writes do to the store what they do to a plain map, at once and at one revision. -/
theorem writes_refine_map {b : Backend} (h : b.Reached) (now : Nat) : b.Transactional now where
  faulted _ := answer_of_faulted now
  unfaulted _ := answer_of_unfaulted now
  txn t := Store.transacts_answer h.sound now t
  put := b.store.answer_put now
  delete := b.store.answer_delete now
  failed c hc f hf := by
    cases hm : meetFault c.name b.faults with
    | some k => exact .inl (answer_of_faulted now (by simp [hm])).2
    | none =>
      obtain ⟨hr, hs⟩ := answer_of_unfaulted (b := b) now hm
      rw [hr] at hf
      rw [hs]
      exact .inr (store_answer_write_error hc hf)

/-- A key is written, goes and is written again in one transaction. -/
theorem writes_refine_map_rewritten :
    let b := (ofMembers ["a"]).move 0 (.call (.put [1] [10] none))
    let t : Txn := ⟨[⟨[1], .version 1, .equal⟩], [.put [1] [11] none, .delete ⟨[0], some [2]⟩, .put [1] [12] none], []⟩
    b.Reached ∧ b.Transactional 5 ∧ @Except.toOption _ TxnAnswer (b.store.answer 5 (.txn t)).1 = some ⟨true, 3⟩ ∧
      (b.store.answer 5 (.txn t)).2.log = b.store.log ++ [⟨3, [⟨.put, ⟨[1], [11], 2, 3, 2, 0⟩⟩,
        ⟨.delete, ⟨[1], [], 0, 3, 0, 0⟩⟩, ⟨.put, ⟨[1], [12], 3, 3, 1, 0⟩⟩]⟩] := by
  intro b t
  have h : b.Reached := .move (.ofMembers _) _ _
  refine ⟨h, writes_refine_map h 5, by decide +kernel, by decide +kernel⟩

end Backend

end Keyspace
