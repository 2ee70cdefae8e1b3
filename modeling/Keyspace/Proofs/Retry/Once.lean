import Keyspace.Client
import Keyspace.Proofs.Diff.Application
import Keyspace.Proofs.Retry.Faults
import Keyspace.Proofs.Retry.Law
import Keyspace.Proofs.Run.Ensures
import Keyspace.Proofs.Store.Log
import Keyspace.Sim.Script

/-!
# Retried writes

An attempt that a fault rule fails does not reach the store, and the first that does is the last one. So a write that
ends well is committed once, and one that fails is not, whatever rules there are and however often it is tried again
(`writes_applied_once`).
-/

namespace Keyspace

/-! ## What leases that are due leave in the log -/

namespace Store

variable {s : Store}

/-- The event deletes a key that is bound to a lease that is due. -/
def Expires (s : Store) (now : Nat) (e : Event) : Prop :=
  e.kind = .delete ∧ ∃ r, s.current e.record.key = some r ∧ r.lease ∈ s.due now

theorem log_expire (h : s.Sound) (now : Nat) : ∃ expired, (s.expire now).log = s.log ++ expired ∧
    ∀ b ∈ expired, ∀ e ∈ b.events, s.Expires now e := by
  obtain ⟨_, expired, ha, hexpires⟩ := leads_endAll_bound (s.due now) h
  obtain ⟨_, happends⟩ := posts_endAll (s.due now) h
  refine ⟨expired, ha.log_eq h happends.floor, fun b hb e he => ?_⟩
  obtain ⟨hk, r, hc, -, hl⟩ := hexpires b hb e he
  exact ⟨hk, r, hc, hl⟩

/-- The batch of operations that are committed, if they change anything. -/
def batchOf (s : Store) (ops : List Op) : List Batch :=
  if (s.draft.applyAll ops).events = [] then [] else [⟨s.revision + 1, (s.draft.applyAll ops).events⟩]

end Store

namespace Retry

open Backend (fault? spent)

/-! ## Calls and faults -/

/-- What an attempt comes to, as far as the rules decide it. -/
def fate (n : CallName) (rules : List FaultRule) (k : Nat) : Outcome Unit :=
  (fault? n rules k).elim (.ok ()) fun kind => .error kind.failure

theorem fault?_succ (n : CallName) (rules : List FaultRule) (k : Nat) :
    fault? n rules (k + 1) = fault? n (spent n rules) k := by
  rw [fault?, fault?, Function.iterate_succ_apply]

theorem fate_succ (n : CallName) (rules : List FaultRule) (k : Nat) :
    fate n rules (k + 1) = fate n (spent n rules) k := by
  rw [fate, fate, fault?_succ]

end Retry

namespace Sim.World

open Backend (fault? spent uses)
open Retry (fate)

variable {α : Type} {w : World}

theorem complete_call (timeout : Option Nat) (c : Call) (k : Outcome c.Answer → Prog Call.Answer Flight α) (w : World) :
    (Prog.call timeout c k).complete (env true) w = (k (w.answer c).1).complete (env true) (w.answer c).2 := by
  have hpoll : poll c (w.beginPlain timeout c).1 w = (.inr (w.answer c).1, (w.answer c).2) := by
    simp [poll, beginPlain, flight, Act.plain, waitEnd, act, commitEach]
  have hfinish : (env true).finish c (w.beginPlain timeout c).1 w = some ((w.answer c).1, (w.answer c).2) := by
    unfold Env.finish Env.finish.go
    rw [show (env true).poll c (w.beginPlain timeout c).1 w = (.inr (w.answer c).1, (w.answer c).2) from hpoll]
  have hstart : (env true).start timeout c w = ((w.beginPlain timeout c).1, w) := rfl
  rw [Prog.complete, hstart]
  simp only [hfinish]

/-- A call under a policy, which is made until it is not failed, or not to be retried. -/
structure Calls (c : Call) (retries last : Nat) (w : World) (r : Outcome c.Answer) (w' : World) : Prop where
  ends : Retry.Ends (fate c.name w.backend.faults) retries last
  calls : w'.backend.calls = List.replicate (last + 1) c.name ++ w.backend.calls
  faults : w'.backend.faults = (spent c.name)^[last + 1] w.backend.faults
  failed : ∀ kind, fault? c.name w.backend.faults last = some kind →
    r = .error kind.failure ∧ w'.backend.store = w.backend.store
  reached : fault? c.name w.backend.faults last = none → (r, w'.backend.store) = w.backend.store.answer w'.now c

theorem calls_of_reaching {c : Call} (retries : Nat) (h : Backend.meetFault c.name w.backend.faults = none) :
    Calls c retries 0 w (w.answer c).1 (w.answer c).2 := by
  have hfault : fault? c.name w.backend.faults 0 = none := by simp [fault?, h]
  have hanswer : w.answer c = ((w.backend.store.answer w.now c).1, { w with backend := { w.backend with
      store := (w.backend.store.answer w.now c).2, calls := c.name :: w.backend.calls } }) := by
    simp [answer, Backend.answer, h]
  rw [hanswer]
  refine ⟨⟨Nat.zero_le _, fun k hk => absurd hk k.not_lt_zero, fun _ ht => ?_⟩, rfl, by simp [spent, h],
    fun kind hk => ?_, fun _ => rfl⟩
  · obtain ⟨f, hf, -⟩ := ht
    simp [fate, hfault] at hf
  · cases hfault.symm.trans hk

theorem answer_of_failing {c : Call} {kind : FaultKind} {rules : List FaultRule}
    (h : Backend.meetFault c.name w.backend.faults = some (kind, rules)) :
    w.answer c = (.error kind.failure, { w with backend := { w.backend with
      faults := spent c.name w.backend.faults, calls := c.name :: w.backend.calls } }) := by
  simp [answer, Backend.answer, spent, h]

theorem calls_of_failing {c : Call} {retries : Nat} {kind : FaultKind} {rules : List FaultRule}
    (h : Backend.meetFault c.name w.backend.faults = some (kind, rules))
    (hspend : Retry.spend retries kind.failure = none) : Calls c retries 0 w (w.answer c).1 (w.answer c).2 := by
  have hfault : fault? c.name w.backend.faults 0 = some kind := by simp [fault?, h]
  rw [answer_of_failing h]
  refine ⟨⟨Nat.zero_le _, fun k hk => absurd hk k.not_lt_zero, fun hpos htransient => ?_⟩, rfl, rfl,
    fun k hk => ?_, fun hn => ?_⟩
  · obtain ⟨f, hf, ht⟩ := htransient
    obtain ⟨m, rfl⟩ := Nat.exists_eq_add_one.2 hpos
    have hf : kind.failure = f := by simpa [fate, hfault] using hf
    simp [Retry.spend, hf, ht] at hspend
  · cases hfault.symm.trans hk
    exact ⟨rfl, rfl⟩
  · cases hfault.symm.trans hn

theorem Calls.retried {c : Call} {retries last : Nat} {kind : FaultKind} {rules : List FaultRule} {r : Outcome c.Answer}
    {w' : World} {time : Nat} (h : Backend.meetFault c.name w.backend.faults = some (kind, rules))
    (ht : kind.failure.isTransient = true) (hc : Calls c retries last { (w.answer c).2 with now := time } r w') :
    Calls c (retries + 1) (last + 1) w r w' := by
  have hfate : Retry.Transient (fate c.name w.backend.faults 0) := ⟨_, by simp [fate, fault?, h], ht⟩
  rw [answer_of_failing h] at hc
  refine ⟨.succ hfate ?_, ?_, ?_, fun k hk => ?_, fun hn => ?_⟩
  · simp only [Retry.fate_succ]
    exact hc.ends
  · rw [hc.calls, List.replicate_succ' (n := last + 1), List.append_assoc]
    rfl
  · rw [hc.faults, Function.iterate_succ_apply (spent c.name) (last + 1)]
  · rw [Retry.fault?_succ] at hk
    exact hc.failed k hk
  · rw [Retry.fault?_succ] at hn
    exact hc.reached hn

/-- The first attempt that reaches the store is the last. -/
theorem calls_runWith (policy : Retry.Policy) {c : Call} (hok : ∀ (s : Store) now, ∃ a, (s.answer now c).1 = .ok a)
    (retries : Nat) : ∀ w : World, ∃ last r w',
      (policy.runWith c retries).complete (env true) w = some (r, w') ∧ Calls c retries last w r w' := by
  induction retries using Nat.strongRecOn with
  | ind retries ih =>
    intro w
    rw [Retry.Policy.runWith_eq]
    simp only [complete_call]
    cases h : Backend.meetFault c.name w.backend.faults with
    | none =>
      obtain ⟨a, ha⟩ := hok w.backend.store w.now
      have hanswer : (w.answer c).1 = .ok a := by simp [answer, Backend.answer, h, ha]
      refine ⟨0, _, _, ?_, calls_of_reaching retries h⟩
      rw [hanswer]
      rfl
    | some met =>
      obtain ⟨kind, rules⟩ := met
      have hanswer : (w.answer c).1 = .error kind.failure := by rw [answer_of_failing h]
      cases hspend : Retry.spend retries kind.failure with
      | none =>
        refine ⟨0, _, _, ?_, calls_of_failing h hspend⟩
        simp only [hanswer, hspend]
        rfl
      | some left =>
        obtain ⟨rfl, ht⟩ := Retry.spend_eq_some_iff.1 hspend
        obtain ⟨last, r, w', hcomplete, hcalls⟩ := ih left (Nat.lt_succ_self _)
          { (w.answer c).2 with now := waitEnd (w.answer c).2.now policy.interval }
        refine ⟨last + 1, r, w', ?_, hcalls.retried h ht⟩
        simp only [hanswer, hspend]
        exact hcomplete

/-! ## Writes -/

/-- What is to be said of a write of those operations that ended with the attempt of that number. -/
structure Once (policy : Retry.Policy) (n : CallName) (ops : List Op) (last : Nat) (w : World) (r : Outcome α)
    (w' : World) : Prop where
  attempts : Retry.Ends (fate n w.backend.faults) policy.retries last
  calls : ∀ m, w'.backend.callCount (some m) = w.backend.callCount (some m) + if m = n then last + 1 else 0
  rules : ∀ i rule, w.backend.faults[i]? = some rule →
    (∀ count, rule.remaining = some count → uses n w.backend.faults (last + 1) i ≤ count) ∧
      w'.backend.faults[i]? =
        some { rule with remaining := rule.remaining.map (· - uses n w.backend.faults (last + 1) i) }
  applied : r.isOk = true → fate n w.backend.faults last = .ok () ∧ ∃ expired,
    w'.backend.store.log = w.backend.store.log ++ expired ++ (w.backend.store.expire w'.now).batchOf ops ∧
      ∀ b ∈ expired, ∀ e ∈ b.events, w.backend.store.Expires w'.now e
  failed : ∀ f, r = .error f → fate n w.backend.faults last = .error f ∧ w'.backend.store = w.backend.store

/-- The program ends, and has written once by then or failed. -/
def WritesOnce (policy : Retry.Policy) (n : CallName) (ops : List Op) (w : World)
    (p : Prog Call.Answer Flight (Outcome α)) : Prop :=
  ∃ r w' last, p.complete (env true) w = some (r, w') ∧ Once policy n ops last w r w'

theorem Calls.once {policy : Retry.Policy} {c : Call} {ops : List Op} {last : Nat} {r : Outcome c.Answer} {w' : World}
    (h : Calls c policy.retries last w r w') (hs : w.backend.store.Sound) {r' : Outcome α}
    (hok : ∀ a, r = .ok a → r'.isOk = true) (herror : ∀ f, r = .error f → r' = .error f)
    (hstore : (w.backend.store.answer w'.now c).1.isOk = true ∧
      (w.backend.store.answer w'.now c).2 = (w.backend.store.expire w'.now).commit ops) :
    Once policy c.name ops last w r' w' where
  attempts := h.ends
  calls m := by
    rw [Backend.callCount, Backend.callCount, h.calls, List.count_append, List.count_replicate]
    by_cases hm : m = c.name
    · simp [hm, Nat.add_comm]
    · simp [hm, Ne.symm hm]
  rules i rule hi := by
    rw [h.faults]
    exact Backend.getElem?_iterate_spent hi (last + 1)
  applied hr := by
    cases hf : fault? c.name w.backend.faults last with
    | some kind =>
      rw [herror _ (h.failed kind hf).1] at hr
      cases hr
    | none =>
      have hw' : w'.backend.store = (w.backend.store.expire w'.now).commit ops :=
        (congrArg Prod.snd (h.reached hf)).trans hstore.2
      obtain ⟨expired, hexpire, hexpires⟩ := Store.log_expire hs w'.now
      refine ⟨by simp [fate, hf], expired, ?_, hexpires⟩
      rw [hw', (Store.commits_commit (Store.leads_expire hs w'.now).1 ops).log, hexpire]
      rfl
  failed f hr := by
    cases hf : fault? c.name w.backend.faults last with
    | some kind =>
      obtain ⟨he, hstay⟩ := h.failed kind hf
      cases hr.symm.trans (herror _ he)
      exact ⟨by simp [fate, hf], hstay⟩
    | none =>
      have hanswer : r = (w.backend.store.answer w'.now c).1 := congrArg Prod.fst (h.reached hf)
      cases hra : r with
      | ok a => exact absurd (hr ▸ hok a hra) nofun
      | error e => rw [← hanswer, hra] at hstore; cases hstore.1

/-- Where a call answers well and what is made of the answer ends well, the whole does, unless a rule fails it. -/
theorem writesOnce_bind (cl : Client) (c : Call) (ops : List Op) (f : c.Answer → Action Call.Answer Flight α)
    (h : ∀ (s : Store) now, ∃ a, s.answer now c = (.ok a, (s.expire now).commit ops))
    (hf : ∀ (s : Store) now a, (s.answer now c).1 = .ok a → ∃ x, (f a).run = .done (.ok x))
    (hs : w.backend.store.Sound) : WritesOnce cl.policy c.name ops w (cl.call c >>= f).run := by
  obtain ⟨last, r, w', hcomplete, hcalls⟩ := calls_runWith cl.policy
    (fun s now => let ⟨a, ha⟩ := h s now; ⟨a, congrArg Prod.fst ha⟩) cl.policy.retries w
  obtain ⟨a, ha⟩ := h w.backend.store w'.now
  have hstore : (w.backend.store.answer w'.now c).1.isOk = true ∧
      (w.backend.store.answer w'.now c).2 = (w.backend.store.expire w'.now).commit ops := by
    rw [ha]
    exact ⟨rfl, rfl⟩
  have hcall : (cl.call c : Action Call.Answer Flight c.Answer).run.complete (env true) w = some (r, w') := hcomplete
  cases hr : r with
  | error e =>
    refine ⟨.error e, w', last, ?_, hcalls.once hs (fun a hra => nomatch hr.symm.trans hra)
      (fun f hrf => by cases hr.symm.trans hrf; rfl) hstore⟩
    rw [Action.run_bind, Prog.complete_bind, hcall, hr]
    rfl
  | ok a =>
    have hreached : fault? c.name w.backend.faults last = none := by
      cases hfault : fault? c.name w.backend.faults last with
      | none => rfl
      | some kind => cases hr.symm.trans (hcalls.failed kind hfault).1
    obtain ⟨x, hx⟩ := hf _ _ a ((congrArg Prod.fst (hcalls.reached hreached)).symm.trans hr)
    refine ⟨.ok x, w', last, ?_, hcalls.once hs (fun _ _ => rfl) (fun f hrf => nomatch hr.symm.trans hrf) hstore⟩
    rw [Action.run_bind, Prog.complete_bind, hcall, hr]
    show (f a).run.complete (env true) w' = _
    rw [hx]
    rfl

/-- A write that is retried is committed once if it ends well and not at all if it fails, whatever faults are set. -/
theorem writes_applied_once (c : Client) {w : World} (hw : w.backend.Reached) :
    (∀ key value, WritesOnce c.policy .put [.put (Utf8.encode key) value none] w (c.put key value).run) ∧
    (∀ key, WritesOnce c.policy .deleteRange [.delete (.single (Utf8.encode key))] w (c.delete key).run) ∧
    (∀ span, WritesOnce c.policy .deleteRange [.delete span] w (c.clear span).run) ∧
    (∀ head d, d.isEmpty = false → WritesOnce c.policy .txn (d.ops head) w (c.applyDiff head d).run) ∧
    ∀ head d, d.isEmpty = true → (c.applyDiff head d).run.complete (env true) w = some (.ok (), w) := by
  have hdelete : ∀ span, WritesOnce c.policy .deleteRange [.delete span] w (c.clear span).run := fun span =>
    writesOnce_bind c (.deleteRange span) _ (fun _ => pure ()) (fun s now => ⟨_, rfl⟩) (fun _ _ _ _ => ⟨(), rfl⟩)
      hw.sound
  refine ⟨fun key value => ?_, fun key => hdelete _, hdelete, fun head d hd => ?_, fun head d hd => ?_⟩
  · rw [← bind_pure (c.put key value)]
    exact writesOnce_bind c (.put _ value none) _ pure (fun s now => ⟨_, rfl⟩) (fun _ _ a _ => ⟨a, rfl⟩) hw.sound
  · have happly : c.applyDiff head d = c.call (.txn (.always (d.ops head))) >>= fun a =>
        (if !a.succeeded then throw (.txnFailed ("applying diff under " ++ head)) else pure () :
          Action Call.Answer Flight Unit) := by
      simp [Client.applyDiff, hd]
    rw [happly]
    refine writesOnce_bind c _ _ _ (fun s now => ⟨_, Store.answer_ops s now d head⟩) (fun s now a ha => ⟨(), ?_⟩)
      hw.sound
    rw [Store.answer_ops] at ha
    cases ha
    rfl
  · simp [Client.applyDiff, hd]
    rfl

/-- Two rules fail an attempt each, and by the third a key has gone with its lease. -/
theorem writes_applied_once_third_attempt :
    let b := (Backend.ofMembers ["a"]).moves [(0, .call (.leaseGrant 1)), (0, .call (.put [1] [2] (some 1))),
      (0, .fail ⟨some .range, none, .fatal⟩), (0, .fail ⟨some .put, some 1, .unavailable⟩),
      (0, .fail ⟨none, some 1, .proposalDropped⟩)]
    let w : World := ⟨5000, b, []⟩
    let c := Client.ofConfig .standard
    b.Reached ∧ WritesOnce c.policy .put [.put (Utf8.encode "k") [7] none] w (c.put "k" [7]).run ∧
      ((c.put "k" [7]).run.complete (env true) w).map (fun x => (x.2.backend.callCount (some .put),
        x.2.backend.faults.map (·.remaining), x.2.backend.store.log.map (·.revision))) =
        some (4, [none, some 0, some 0], [2, 3, 4]) := by
  intro b w c
  have hb : b.Reached := Backend.moves_inv (fun now m h => .move h now m) _ (.ofMembers ["a"])
  exact ⟨hb, (writes_applied_once c (w := w) hb).1 "k" [7], by decide +kernel⟩

end Sim.World

end Keyspace
