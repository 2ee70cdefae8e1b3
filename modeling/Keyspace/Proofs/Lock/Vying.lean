import Keyspace.Lock.Acquire
import Keyspace.Proofs.Run.Ensures

/-!
# Vying for a key

A program vies for a key if it makes no call that writes the key but transactions that take it while it
is absent, and if one of these is answered as done, ends at once with what it took. Rounds of taking a
lock vie for its key (`vies_acquireLock`); reading or releasing a lock writes nothing.
-/

namespace Keyspace

/-- A key was bound to a lease at a revision. -/
structure Hold where
  lease : Int
  revision : Int
  deriving DecidableEq, Repr

def Call.gains? (k : Bytes) : (c : Call) → Outcome c.Answer → Option Hold
  | .txn t, .ok a =>
    match t.success with
    | [.put key _ (some lease)] => if key = k ∧ a.succeeded = true then some ⟨lease, a.revision⟩ else none
    | _ => none
  | _, _ => none

/-- A call does not write a key, or takes it while it is absent. -/
def Call.Vies (k : Bytes) (c : Call) : Prop :=
  ¬ c.Writes k ∨ ∃ (r : LockRequest) (l : Lock), Utf8.encode r.key = k ∧ l.lease ≠ 0 ∧ c = .txn (r.txn l)

/-- No lease has the id that stands for none. -/
def Call.GrantsOne : (c : Call) → Outcome c.Answer → Prop
  | .leaseGrant _, .ok g => g.id ≠ 0
  | _, _ => True

theorem Call.gains?_error {k : Bytes} (c : Call) (f : Failure) : c.gains? k (.error f) = none := by
  cases c <;> rfl

theorem Call.gains?_of_not_writes {k : Bytes} {c : Call} (h : ¬ c.Writes k) (r : Outcome c.Answer) :
    c.gains? k r = none := by
  cases c with
  | txn t =>
    cases r with
    | error f => rfl
    | ok a =>
      simp only [gains?]
      split
      · rename_i key value lease hs
        refine if_neg fun hk => h ⟨.put key value (some lease), .inl ?_, hk.1⟩
        rw [hs]
        exact List.mem_singleton.2 rfl
      · rfl
  | _ => cases r <;> rfl

theorem LockRequest.gains?_txn (r : LockRequest) (l : Lock) (a : (Call.txn (r.txn l)).Answer) :
    Call.gains? (Utf8.encode r.key) (.txn (r.txn l)) (.ok a) =
      if a.succeeded = true then some ⟨l.lease, a.revision⟩ else none := by
  simp [Call.gains?, LockRequest.txn, Txn.provided]

namespace Prog

variable {φ : Call → Type} {α β : Type} {k : Bytes}

/-- `hold?` says what a result tells of what was taken. -/
def Vies (k : Bytes) (hold? : α → Option Hold) : Prog Call.Answer φ α → Prop
  | done a => hold? a = none
  | call _ i p | await i _ p => i.Vies k ∧ ∀ r, i.GrantsOne r →
      match i.gains? k r with
      | none => (p r).Vies k hold?
      | some h => ∃ a, p r = done a ∧ hold? a = some h
  | sleep _ p | sleepUntil _ p => p.Vies k hold?
  | clock p => ∀ t, (p t).Vies k hold?
  | wallClock p => ∀ t, (p t).Vies k hold?

variable {hold? : α → Option Hold} {hold?' : β → Option Hold} {p : Prog Call.Answer φ α}

theorem Vies.bind {f : α → Prog Call.Answer φ β} (h : p.Vies k hold?)
    (hf : ∀ a, hold? a = none → (f a).Vies k hold?')
    (hd : ∀ a g, hold? a = some g → ∃ b, f a = done b ∧ hold?' b = some g) : (p.bind f).Vies k hold?' := by
  induction p with
  | done a => exact hf a h
  | call _ i p ih | await i _ p ih =>
    refine ⟨h.1, fun r hi => ?_⟩
    have hr := h.2 r hi
    cases hg : i.gains? k r with
    | none =>
      rw [hg] at hr
      exact ih r hr
    | some g =>
      rw [hg] at hr
      obtain ⟨a, ha, hs⟩ := hr
      obtain ⟨b, hb, hs'⟩ := hd a g hs
      refine ⟨b, ?_, hs'⟩
      simp only
      rw [ha]
      exact hb
  | sleep _ p ih => exact ih h
  | sleepUntil _ p ih => exact ih h
  | clock p ih => exact fun t => ih t (h t)
  | wallClock p ih => exact fun t => ih t (h t)

theorem Vies.bind_none {f : α → Prog Call.Answer φ β} (h : p.Vies k fun _ => none)
    (hf : ∀ a, (f a).Vies k hold?') : (p.bind f).Vies k hold?' :=
  h.bind (fun a _ => hf a) fun _ _ h => by cases h

end Prog

namespace Client

variable {φ : Call → Type} {k : Bytes}

theorem vies_attempt (c : Client) {i : Call} (h : i.Vies k) :
    (c.attempt i : Prog Call.Answer φ _).Vies k (i.gains? k) := by
  refine ⟨h, fun r _ => ?_⟩
  cases hg : i.gains? k r with
  | none => exact hg
  | some g => exact ⟨r, rfl, hg⟩

theorem vies_call (c : Client) {i : Call} (h : ¬ i.Writes k) :
    (c.call i : Action Call.Answer φ _).run.Vies k fun _ => none := by
  show (c.policy.runWith i c.policy.retries).Vies k _
  generalize c.policy.retries = n
  induction n with
  | zero =>
    refine ⟨.inl h, fun r _ => ?_⟩
    rw [Call.gains?_of_not_writes h]
    rfl
  | succ n ih =>
    refine ⟨.inl h, fun r _ => ?_⟩
    rw [Call.gains?_of_not_writes h]
    cases r with
    | ok a => exact rfl
    | error f =>
      simp only
      split
      · exact ih
      · exact rfl

/-! ## Taking a lock -/

def heldBy? : Outcome Lock → Option Hold
  | .ok l => some ⟨l.lease, l.revision⟩
  | .error _ => none

def takenBy? : LockRound → Option Hold
  | .taken l => some ⟨l.lease, l.revision⟩
  | _ => none

theorem vies_writeLock (c : Client) (r : LockRequest) {lease : Int} (hl : lease ≠ 0) :
    (c.writeLock r lease : Prog Call.Answer φ LockRound).Vies (Utf8.encode r.key) takenBy? := by
  intro today
  have hrevoke : (c.revokeLease lease : Action Call.Answer φ Unit).run.Vies (Utf8.encode r.key) fun _ => none :=
    c.vies_call (i := .leaseRevoke lease) id
  refine (c.vies_attempt (.inr ⟨r, ⟨lease, r.ttl, today, 0⟩, rfl, hl, rfl⟩)).bind (fun a ha => ?_) fun a g hg => ?_
  · cases a with
    | error f =>
      apply hrevoke.bind_none
      intro x
      cases x <;> exact rfl
    | ok a =>
      rw [LockRequest.gains?_txn] at ha
      have hs : ¬ a.succeeded = true := fun hs => by rw [if_pos hs] at ha; cases ha
      simp only
      rw [if_neg hs]
      apply hrevoke.bind_none
      intro x
      cases x <;> exact rfl
  · cases a with
    | error f => rw [Call.gains?_error] at hg; cases hg
    | ok a =>
      rw [LockRequest.gains?_txn] at hg
      split at hg
      · rename_i hs
        cases hg
        refine ⟨.taken ⟨lease, r.ttl, today, a.revision⟩, ?_, rfl⟩
        simp only
        rw [if_pos hs]
        rfl
      · cases hg

theorem vies_lockRound (c : Client) (r : LockRequest) :
    (c.lockRound r : Prog Call.Answer φ LockRound).Vies (Utf8.encode r.key) takenBy? := by
  refine ⟨.inl id, fun a _ => ?_⟩
  rw [Call.gains?_of_not_writes id]
  cases a with
  | error f => exact rfl
  | ok a =>
    show Prog.Vies _ _ (if (!a.records.isEmpty) = true then _ else _)
    split
    · exact rfl
    · refine ⟨.inl id, fun g hg => ?_⟩
      rw [Call.gains?_of_not_writes id]
      cases g with
      | error f => exact rfl
      | ok g => exact c.vies_writeLock r hg

theorem vies_lockRounds (c : Client) (r : LockRequest) (deadline rounds : Nat) : ∀ retries : Nat,
    (c.lockRounds r deadline rounds retries : Prog Call.Answer φ (Outcome Lock)).Vies (Utf8.encode r.key) heldBy? := by
  induction rounds with
  | zero => exact fun _ => rfl
  | succ rounds ih =>
    intro retries now
    show Prog.Vies _ _ (if deadline < now then _ else _)
    split
    · exact rfl
    · refine (c.vies_lockRound r).bind (fun a ha => ?_) fun a g hg => ?_
      · cases a with
        | taken l => cases ha
        | fatal f => exact rfl
        | contended => exact ih retries
        | failed f =>
          simp only
          split
          · exact rfl
          · exact ih _
      · cases a with
        | taken l => exact ⟨.ok l, rfl, hg⟩
        | _ => cases hg

theorem vies_acquireLock (c : Client) (r : LockRequest) :
    (c.acquireLock r : Action Call.Answer φ Lock).run.Vies (Utf8.encode r.key) heldBy? := fun _ =>
  c.vies_lockRounds (r.withDefaults c.config.lock) _ _ _

/-! ## Reading and releasing a lock -/

theorem vies_readLock (c : Client) (key : String) :
    (c.readLock key : Action Call.Answer φ Lock).run.Vies k fun _ => none := by
  unfold readLock get
  rw [Action.run_bind, Action.run_bind]
  refine Prog.Vies.bind_none (Prog.Vies.bind_none (c.vies_call (i := .range _ _) id) fun a => ?_) fun x => ?_
  · cases a <;> exact rfl
  · cases x with
    | error f => exact rfl
    | ok e =>
      cases e with
      | none => exact rfl
      | some e =>
        simp only
        cases Lock.ofBytes? e.value <;> exact rfl

theorem vies_releaseLock (c : Client) (key : String) :
    (c.releaseLock key : Action Call.Answer φ Unit).run.Vies k fun _ => none := by
  unfold releaseLock
  rw [Action.run_bind]
  apply (c.vies_readLock key).bind_none
  intro x
  cases x with
  | error f => exact rfl
  | ok l => exact c.vies_call (i := .leaseRevoke l.lease) id

end Client

end Keyspace
