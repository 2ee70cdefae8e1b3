import Keyspace.Lock.Acquire
import Keyspace.Proofs.Retry.Law
import Keyspace.Proofs.Run.Leases
import Keyspace.Proofs.Run.Reading

/-!
# The calls of a round

What the calls of a round make of a store: a look at the key, the transaction that takes the key if it is free
(`answer_take`), and the end of a lease. Rounds one after the other ensure what one of them does
(`Client.ensures_lockRounds`).
-/

namespace Keyspace

variable {s : Store} {now : Nat}

/-! ## Looks -/

namespace Store

theorem answer_look (h : s.Sound) (now : Nat) (k : Bytes) :
    s.answer now (.range (.single k) none) = (.ok ⟨(s.expire now).revision, ((s.expire now).current k).toList⟩,
      s.expire now) := by
  rw [answer_range_latest h, SortedMap.values_filter_single, get?_latest]

/-! ## Ends -/

theorem get?_leases_answer_leaseRevoke (h : s.Sound) (now : Nat) (lease : Int) :
    (s.answer now (.leaseRevoke lease)).2.leases.get? lease = none := by
  simp only [answer]
  cases hr : (s.expire now).revoke? lease with
  | none =>
    rw [revoke?_eq] at hr
    exact Option.map_eq_none_iff.1 hr
  | some t => exact get?_leases_revoke? (leads_expire h now).1 hr

/-! ## Takes -/

theorem satisfies_absent (h : s.Sound) {key : String} {cs : List Condition} :
    s.satisfies (.keyPresent key false :: cs) = true ↔
      s.current (Utf8.encode key) = none ∧ s.satisfies cs = true := by
  refine Bool.and_eq_true_iff.trans (and_congr ?_ Iff.rfl)
  cases hc : s.current (Utf8.encode key) with
  | none => simp [Condition.keyPresent, Condition.holds, Relation.holds, hc]
  | some r =>
    obtain ⟨n, _, hf⟩ := h.dated.current hc
    have hpos := hf.version_pos
    have hne : r.version ≠ 0 := by omega
    simp [Condition.keyPresent, Condition.holds, Relation.holds, hc, hne]

end Store

/-- The lock can be taken: its key is absent, and what must hold besides does. -/
def LockRequest.FreeIn (r : LockRequest) (s : Store) : Prop :=
  s.current (Utf8.encode r.key) = none ∧ s.satisfies r.conditions = true

instance (r : LockRequest) (s : Store) : Decidable (r.FreeIn s) := inferInstanceAs (Decidable (_ ∧ _))

namespace Store

theorem answer_take (h : s.Sound) (now : Nat) (r : LockRequest) {l : Lock} (hl : l.lease ≠ 0) :
    s.answer now (.txn (r.txn l)) =
      if r.FreeIn (s.expire now) then
        if ((s.expire now).leases.get? l.lease).isSome then
          (.ok ⟨true, (s.expire now).revision + 1⟩,
            (s.expire now).commit [.put (Utf8.encode r.key) l.toBytes (some l.lease)])
        else (.error (.leaseNotFound l.lease), s.expire now)
      else (.ok ⟨false, (s.expire now).revision⟩, s.expire now) := by
  have hx := (leads_expire h now).1
  simp only [answer]
  generalize s.expire now = x at *
  have hsat : x.satisfies (r.txn l).conditions = decide (r.FreeIn x) := by
    rw [Bool.eq_iff_iff, decide_eq_true_iff]
    exact satisfies_absent hx
  rw [hsat]
  by_cases hf : r.FreeIn x
  · rw [decide_eq_true hf, if_pos rfl, if_pos hf]
    have hmiss : x.missingLease? (r.txn l).success =
        if (x.leases.get? l.lease).isSome then none else some l.lease := by
      show (if l.lease ≠ 0 && !x.leases.contains l.lease then some l.lease else none) = _
      rw [SortedMap.contains_eq_isSome]
      cases (x.leases.get? l.lease).isSome <;> simp [hl]
    have hrev := revision_commit_put hx (Utf8.encode r.key) l.toBytes (some l.lease) []
    rw [commit?, hmiss]
    by_cases hl : (x.leases.get? l.lease).isSome
    · rw [if_pos hl, if_pos hl, ← hrev]
      rfl
    · rw [if_neg hl, if_neg hl]
  · rw [decide_eq_false hf, if_neg Bool.false_ne_true, if_neg hf]
    rfl

/-- The record that a take leaves. -/
theorem current_take (s : Store) (key : Bytes) (l : Lock) :
    ∃ y, (s.commit [.put key l.toBytes (some l.lease)]).current key = some y ∧ y.lease = l.lease ∧
      y.modRevision = s.revision + 1 ∧ y.value = l.toBytes := by
  refine ⟨(Edit.start s).recordOf key l.toBytes (some l.lease), ?_, rfl, rfl, rfl⟩
  rw [current_commit_put, if_pos rfl]

end Store

/-! ## Rounds -/

variable {S : Type} {Γ : Setting S} {P : S → Prop} {Q : Outcome Lock → S → Prop}

/-- A round ends the taking of a lock as `Q` says, or leaves what the next one needs. -/
def LockRound.Settles (P : S → Prop) (Q : Outcome Lock → S → Prop) : LockRound → S → Prop
  | .taken l, s => Q (.ok l) s
  | .contended, s => P s
  | .failed f, s => Q (.error f) s ∧ (f.isTransient = true → P s)
  | .fatal f, s => Q (.error f) s

theorem Client.ensures_lockRounds {φ : Call → Type} (c : Client) (r : LockRequest) (deadline rounds : Nat)
    (hQ : ∀ {x s t}, Q x s → Γ.others s t → Q x t) (hlate : ∀ {s}, P s → Q (.error (.lockDeadlineExceeded r.key)) s)
    (hround : ∀ {s}, P s → (c.lockRound r : Prog Call.Answer φ LockRound).Ensures Γ (LockRound.Settles P Q) s) :
    ∀ (retries : Nat) {s : S}, P s →
      (c.lockRounds r deadline rounds retries : Prog Call.Answer φ (Outcome Lock)).Ensures Γ Q s := by
  induction rounds with
  | zero => exact fun _ _ h _ ho => hQ (hlate h) ho
  | succ rounds ih =>
    intro retries s h now
    show Prog.Ensures Γ Q (if deadline < now then _ else _) s
    split
    · exact fun _ ho => hQ (hlate h) ho
    · refine (hround h).bind fun x t hx => ?_
      cases x with
      | taken l => exact fun _ ho => hQ hx ho
      | contended => exact ih retries hx
      | fatal f => exact fun _ ho => hQ hx ho
      | failed f =>
        simp only
        cases hspend : Retry.spend retries f with
        | none => exact fun _ ho => hQ hx.1 ho
        | some left => exact ih left (hx.2 (Retry.spend_eq_some_iff.1 hspend).2)

end Keyspace
