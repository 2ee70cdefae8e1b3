import Keyspace.Lock.Acquire
import Keyspace.Proofs.Retry.Law
import Keyspace.Proofs.Run.Course

/-!
# The budget of taking a lock

Taking a lock has one budget of retries for its looks, grants and takes. Whatever it hears, it is spent on their
transient failures alone: a failure of these calls is returned if it is not transient, or the budget was spent before
it, or the lease of the attempt could not be given back, and otherwise the rounds go on (`budget_spent`).
-/

namespace Keyspace

namespace Reply

/-- The failure of a look, a grant or a take. -/
def failure? : Reply → Option Failure
  | ⟨.range .., .error f⟩ | ⟨.leaseGrant _, .error f⟩ | ⟨.txn _, .error f⟩ => some f
  | _ => none

def isTransient (e : Reply) : Bool := e.failure?.any (·.isTransient)

end Reply

/-- How often looks, grants and takes failed transiently. -/
def transients (hs : List Reply) : Nat := hs.countP Reply.isTransient

variable {φ : Call → Type} {p : Retry.Policy} {lease : Int} {n now stop : Nat} {hs : List Reply}

/-! ## Giving a lease back -/

/-- What is heard of the end of a lease that is asked for with a budget of `n`, and what comes of it. -/
inductive Revoking (lease : Int) : Nat → List Reply → Option (Outcome Unit) → Prop
  | start (n : Nat) : Revoking lease n [] none
  | ended (n : Nat) : Revoking lease n [⟨.leaseRevoke lease, .ok ()⟩] (some (.ok ()))
  | failed {n : Nat} {f : Failure} (h : Retry.spend n f = none) :
    Revoking lease n [⟨.leaseRevoke lease, .error f⟩] (some (.error f))
  | again {n m : Nat} {f : Failure} {hs : List Reply} {o : Option (Outcome Unit)} (h : Retry.spend n f = some m)
    (hr : Revoking lease m hs o) : Revoking lease n (⟨.leaseRevoke lease, .error f⟩ :: hs) o

theorem Revoking.failure? {o : Option (Outcome Unit)} (h : Revoking lease n hs o) : ∀ e ∈ hs, e.failure? = none := by
  induction h with
  | start n => exact List.forall_mem_nil _
  | ended n => exact List.forall_mem_singleton.2 rfl
  | failed h => exact List.forall_mem_singleton.2 rfl
  | again h hr ih => exact List.forall_mem_cons.2 ⟨rfl, ih⟩

theorem Course.revoking {q : Prog Call.Answer φ (Outcome Unit)}
    (h : Course (p.runWith (.leaseRevoke lease) n) now hs q stop) : Revoking lease n hs q.result? := by
  induction n generalizing now hs with
  | zero =>
    cases h with
    | here => exact .start _
    | @call _ _ _ _ _ _ r _ _ ht h =>
      obtain ⟨rfl, rfl, -⟩ := h.of_done
      cases r with
      | ok a => exact .ended _
      | error f => exact .failed rfl
  | succ n ih =>
    cases h with
    | here => exact .start _
    | @call _ _ _ _ _ _ r _ _ ht h =>
      cases r with
      | ok a =>
        obtain ⟨rfl, rfl, -⟩ := h.of_done
        exact .ended _
      | error f =>
        simp only at h
        split at h
        · rename_i hf
          have hs : Retry.spend (n + 1) f = some n := if_pos hf
          cases h with
          | here => exact .again hs (.start _)
          | sleep _ h => exact .again hs (ih h)
        · rename_i hf
          obtain ⟨rfl, rfl, -⟩ := h.of_done
          exact .failed (if_neg hf)

/-! ## Rounds -/

/-- What comes of a lost race, with the end of the lease. -/
def LockRound.ofLost : Outcome Unit → LockRound
  | .ok _ => .contended
  | .error e => .fatal e

/-- What comes of a take that failed, with the end of the lease. -/
def LockRound.ofFailed (f : Failure) : Outcome Unit → LockRound
  | .ok _ => .failed f
  | .error _ => .fatal f

/-- What is heard in a round, and what comes of it. -/
inductive Tried (p : Retry.Policy) (r : LockRequest) : List Reply → Option LockRound → Prop
  | start : Tried p r [] none
  | lookFailed (f : Failure) : Tried p r [⟨.range (.single (Utf8.encode r.key)) none, .error f⟩] (some (.failed f))
  | held (a : RangeAnswer) : Tried p r [⟨.range (.single (Utf8.encode r.key)) none, .ok a⟩] (some .contended)
  | looked (a : RangeAnswer) : Tried p r [⟨.range (.single (Utf8.encode r.key)) none, .ok a⟩] none
  | grantFailed (a : RangeAnswer) (f : Failure) :
    Tried p r [⟨.range (.single (Utf8.encode r.key)) none, .ok a⟩, ⟨.leaseGrant r.ttl, .error f⟩] (some (.failed f))
  | granted (a : RangeAnswer) (g : LeaseAnswer) :
    Tried p r [⟨.range (.single (Utf8.encode r.key)) none, .ok a⟩, ⟨.leaseGrant r.ttl, .ok g⟩] none
  | taken (a : RangeAnswer) (g : LeaseAnswer) (t : Txn) {u : TxnAnswer} (hu : u.succeeded = true) (l : Lock) :
    Tried p r [⟨.range (.single (Utf8.encode r.key)) none, .ok a⟩, ⟨.leaseGrant r.ttl, .ok g⟩, ⟨.txn t, .ok u⟩]
      (some (.taken l))
  | lost (a : RangeAnswer) (g : LeaseAnswer) (t : Txn) {u : TxnAnswer} (hu : u.succeeded = false) {hs : List Reply}
    {o : Option (Outcome Unit)} (h : Revoking g.id p.retries hs o) :
    Tried p r (⟨.range (.single (Utf8.encode r.key)) none, .ok a⟩ :: ⟨.leaseGrant r.ttl, .ok g⟩ :: ⟨.txn t, .ok u⟩ :: hs)
      (o.map .ofLost)
  | takeFailed (a : RangeAnswer) (g : LeaseAnswer) (t : Txn) (f : Failure) {hs : List Reply}
    {o : Option (Outcome Unit)} (h : Revoking g.id p.retries hs o) :
    Tried p r (⟨.range (.single (Utf8.encode r.key)) none, .ok a⟩ :: ⟨.leaseGrant r.ttl, .ok g⟩ :: ⟨.txn t, .error f⟩ :: hs)
      (o.map (.ofFailed f))

theorem Course.revokeLease {β : Type} {c : Client} {k : Outcome Unit → Prog Call.Answer φ β} {f : Outcome Unit → β}
    (hk : ∀ x, k x = .done (f x)) {q : Prog Call.Answer φ β}
    (h : Course ((c.revokeLease lease).run.bind k) now hs q stop) :
    ∃ o, Revoking lease c.policy.retries hs o ∧ q.result? = o.map f := by
  rcases h.bind_cases with ⟨p', hp, hn, hq⟩ | ⟨a, t, us, vs, rfl, hp, hf⟩
  · exact ⟨none, hn ▸ hp.revoking, hq⟩
  · rw [hk] at hf
    obtain ⟨rfl, rfl, -⟩ := hf.of_done
    rw [List.append_nil]
    exact ⟨some a, hp.revoking, rfl⟩

theorem Course.attempt {β : Type} {c : Client} {i : Call} {f : Outcome i.Answer → Prog Call.Answer φ β}
    {q : Prog Call.Answer φ β} (h : Course ((c.attempt i).bind f) now hs q stop) :
    (hs = [] ∧ q.result? = none) ∨ ∃ o t us, hs = ⟨i, o⟩ :: us ∧ Course (f o) t us q stop := by
  have h : Course (.call (some c.policy.timeout) i f) now hs q stop := h
  cases h with
  | here => exact .inl ⟨rfl, rfl⟩
  | call _ h => exact .inr ⟨_, _, _, rfl, h⟩

theorem Course.tried {c : Client} {r : LockRequest} {q : Prog Call.Answer φ LockRound}
    (h : Course (c.lockRound r) now hs q stop) : Tried c.policy r hs q.result? := by
  rcases Course.attempt h with ⟨rfl, hq⟩ | ⟨o, t, us, rfl, h₁⟩
  · exact hq ▸ .start
  cases o with
  | error f =>
    obtain ⟨rfl, rfl, -⟩ := h₁.of_done
    exact .lookFailed f
  | ok a =>
    simp only at h₁
    split at h₁
    · obtain ⟨rfl, rfl, -⟩ := h₁.of_done
      exact .held a
    rcases h₁.attempt with ⟨rfl, hq⟩ | ⟨o, t, us, rfl, h₂⟩
    · exact hq ▸ .looked a
    cases o with
    | error f =>
      obtain ⟨rfl, rfl, -⟩ := h₂.of_done
      exact .grantFailed a f
    | ok g =>
      have h₂ : Course (.wallClock fun today => _) t us q stop := h₂
      cases h₂ with
      | here => exact .granted a g
      | wallClock today h₂ =>
        rcases h₂.attempt with ⟨rfl, hq⟩ | ⟨o, t, us, rfl, h₃⟩
        · exact hq ▸ .granted a g
        cases o with
        | error f =>
          obtain ⟨o, hr, hq⟩ := Course.revokeLease (f := .ofFailed f) (fun x => by cases x <;> rfl) h₃
          rw [hq]
          exact .takeFailed a g _ f hr
        | ok u =>
          simp only at h₃
          split at h₃
          · rename_i hu
            obtain ⟨rfl, rfl, -⟩ := h₃.of_done
            exact .taken a g _ hu _
          · rename_i hu
            obtain ⟨o, hr, hq⟩ := Course.revokeLease (f := .ofLost) (fun x => by cases x <;> rfl) h₃
            rw [hq]
            exact .lost a g _ (Bool.eq_false_iff.2 hu) hr

/-! ## Splits -/

theorem transients_of_none (h : ∀ e ∈ hs, e.failure? = none) : transients hs = 0 :=
  List.countP_eq_zero.2 fun e he => by simp [Reply.isTransient, h e he]

theorem transients_append (us vs : List Reply) : transients (us ++ vs) = transients us + transients vs :=
  List.countP_append

/-- A failure stands behind all that is none. -/
theorem split_of_none {us vs before after : List Reply} {e : Reply} (hu : ∀ d ∈ us, d.failure? = none)
    (he : e.failure? ≠ none) (h : us ++ vs = before ++ e :: after) :
    ∃ before', before = us ++ before' ∧ vs = before' ++ e :: after := by
  induction us generalizing before with
  | nil => exact ⟨before, rfl, h⟩
  | cons d us ih =>
    cases before with
    | nil =>
      obtain ⟨rfl, -⟩ := List.cons.inj h
      exact absurd (hu _ List.mem_cons_self) he
    | cons d' before =>
      obtain ⟨rfl, htail⟩ := List.cons.inj h
      obtain ⟨before', rfl, hv⟩ := ih (fun d hd => hu d (List.mem_cons_of_mem _ hd)) htail
      exact ⟨before', rfl, hv⟩

/-- The first failure of two parts of which the second has none. -/
theorem split_of_failure {us vs before after : List Reply} {d e : Reply} (hu : ∀ d ∈ us, d.failure? = none)
    (hv : ∀ d ∈ vs, d.failure? = none) (he : e.failure? ≠ none) (h : us ++ d :: vs = before ++ e :: after) :
    before = us ∧ e = d ∧ after = vs := by
  obtain ⟨before', rfl, hvs⟩ := split_of_none hu he h
  cases before' with
  | nil =>
    obtain ⟨rfl, rfl⟩ := List.cons.inj hvs
    exact ⟨List.append_nil _, rfl, rfl⟩
  | cons d' before' =>
    obtain ⟨-, rfl⟩ := List.cons.inj hvs
    exact absurd (hv e (List.mem_append_right _ List.mem_cons_self)) he

/-! ## The law -/

/-- What is heard between a failed look, grant or take and the decision on it: after a take the lease is given back. -/
inductive Cleanup (p : Retry.Policy) : List Reply → Reply → List Reply → Option (Outcome Unit) → Prop
  | look (before : List Reply) (span : Span) (revision : Option Int) (f : Failure) :
    Cleanup p before ⟨.range span revision, .error f⟩ [] (some (.ok ()))
  | grant (before : List Reply) (ttl : Int) (f : Failure) :
    Cleanup p before ⟨.leaseGrant ttl, .error f⟩ [] (some (.ok ()))
  | take (before : List Reply) (ttl : Int) (g : LeaseAnswer) (t : Txn) (f : Failure) {hs : List Reply}
    {o : Option (Outcome Unit)} (h : Revoking g.id p.retries hs o) :
    Cleanup p (before ++ [⟨.leaseGrant ttl, .ok g⟩]) ⟨.txn t, .error f⟩ hs o

/-- A failure is returned at once, or the rounds go on: at most they end because the deadline has passed. -/
structure Decided (stop : Prop) (key : String) (deadline : Nat) (f : Failure) (rest : List Reply)
    (x : Option (Outcome Lock)) (now : Nat) : Prop where
  returned : (rest = [] ∧ x = some (.error f)) ↔ stop
  goesOn : ¬ stop → rest = [] → x = none ∨ x = some (.error (.lockDeadlineExceeded key)) ∧ deadline < now

/-- Where a failure that is returned comes from. -/
inductive Surfaces (p : Retry.Policy) (f : Failure) : List Reply → Prop
  | call (before : List Reply) {after : List Reply} {e : Reply} {o : Outcome Unit} (he : e.failure? = some f)
    (h : Cleanup p before e after (some o)) : Surfaces p f (before ++ e :: after)
  /-- The lease of an attempt that lost the race could not be given back. -/
  | lost (before : List Reply) (ttl : Int) (g : LeaseAnswer) (t : Txn) {u : TxnAnswer} (hu : u.succeeded = false)
    {after : List Reply} (h : Revoking g.id p.retries after (some (.error f))) :
    Surfaces p f (before ++ ⟨.leaseGrant ttl, .ok g⟩ :: ⟨.txn t, .ok u⟩ :: after)

/-- How a budget of `n` is spent. -/
structure Spends (p : Retry.Policy) (key : String) (deadline n : Nat) (hs : List Reply) (x : Option (Outcome Lock))
    (now : Nat) : Prop where
  failures : ∀ before e after f, hs = before ++ e :: after → e.failure? = some f →
    ∃ revokes rest o, after = revokes ++ rest ∧ Cleanup p before e revokes o ∧
      match o with
      | none => rest = [] ∧ x = none
      | some o => Decided (f.isTransient = false ∨ transients before = n ∨ ∃ g, o = .error g) key deadline f rest x now
  error : ∀ f, x = some (.error f) → Surfaces p f hs ∨ f = .lockDeadlineExceeded key ∧ deadline < now
  ok : ∀ l, x = some (.ok l) → ∃ before t u, hs = before ++ [⟨.txn t, .ok u⟩] ∧ u.succeeded = true

theorem Cleanup.prepend {us before after : List Reply} {e : Reply} {o : Option (Outcome Unit)}
    (h : Cleanup p before e after o) : Cleanup p (us ++ before) e after o := by
  cases h with
  | look _ span revision f => exact .look _ span revision f
  | grant _ ttl f => exact .grant _ ttl f
  | take before ttl g t f h =>
    rw [← List.append_assoc]
    exact .take _ ttl g t f h

theorem Surfaces.prepend {us vs : List Reply} {f : Failure} (h : Surfaces p f vs) : Surfaces p f (us ++ vs) := by
  cases h with
  | call before he h =>
    rw [← List.append_assoc]
    exact .call _ he h.prepend
  | lost before ttl g t hu h =>
    rw [← List.append_assoc]
    exact .lost _ ttl g t hu h

/-! ## Rounds and the law -/

variable {r : LockRequest}

/-- A round has one failure at most, and is what that failure makes of it. -/
theorem Tried.failure {x : Option LockRound} (h : Tried p r hs x) {before after : List Reply} {e : Reply} {f : Failure}
    (he : e.failure? = some f) (hsplit : hs = before ++ e :: after) :
    ∃ o, Cleanup p before e after o ∧ x = o.map (.ofFailed f) ∧ transients before = 0 := by
  have hne : e.failure? ≠ none := he ▸ nofun
  have quiet : (∀ d ∈ hs, d.failure? = none) → False := fun h =>
    hne (h e (hsplit ▸ List.mem_append_right _ List.mem_cons_self))
  have only : ∀ (us : List Reply) {vs : List Reply} {d : Reply}, hs = us ++ d :: vs → (∀ d ∈ us, d.failure? = none) →
      (∀ d ∈ vs, d.failure? = none) → before = us ∧ e = d ∧ after = vs ∧ transients before = 0 := fun _ _ _ hs hu hv => by
    obtain ⟨rfl, rfl, rfl⟩ := split_of_failure hu hv hne (hs.symm.trans hsplit)
    exact ⟨rfl, rfl, rfl, transients_of_none hu⟩
  cases h with
  | start => exact (quiet (List.forall_mem_nil _)).elim
  | held a | looked a => exact (quiet (by simp [Reply.failure?])).elim
  | granted a g => exact (quiet (by simp [Reply.failure?])).elim
  | taken a g t hu l => exact (quiet (by simp [Reply.failure?])).elim
  | lost a g t hu h => exact (quiet (by simpa [Reply.failure?] using h.failure?)).elim
  | lookFailed f' =>
    obtain ⟨rfl, rfl, rfl, ht⟩ := only [] rfl (List.forall_mem_nil _) (List.forall_mem_nil _)
    cases he
    exact ⟨_, .look _ _ _ _, rfl, ht⟩
  | grantFailed a f' =>
    obtain ⟨rfl, rfl, rfl, ht⟩ := only [_] rfl (by simp [Reply.failure?]) (List.forall_mem_nil _)
    cases he
    exact ⟨_, .grant _ _ _, rfl, ht⟩
  | takeFailed a g t f' h =>
    obtain ⟨rfl, rfl, rfl, ht⟩ := only [_, _] rfl (by simp [Reply.failure?]) h.failure?
    cases he
    exact ⟨_, .take [_] _ g t f h, rfl, ht⟩

theorem Tried.transients_contended (h : Tried p r hs (some .contended)) : transients hs = 0 := by
  refine transients_of_none fun e he => ?_
  obtain ⟨before, after, rfl⟩ := List.append_of_mem he
  cases hf : e.failure? with
  | none => rfl
  | some f =>
    obtain ⟨o, -, ho, -⟩ := h.failure hf rfl
    cases o with
    | none => cases ho
    | some o => cases o <;> cases ho

theorem Tried.transients_failed {f : Failure} (h : Tried p r hs (some (.failed f))) (hf : f.isTransient = true) :
    transients hs = 1 := by
  generalize hx : some (LockRound.failed f) = x at h
  cases h with
  | lookFailed f' =>
    cases hx
    simp [transients, Reply.isTransient, Reply.failure?, hf]
  | grantFailed a f' =>
    cases hx
    simp [transients, Reply.isTransient, Reply.failure?, hf]
  | @lost a g t u hu hs o h =>
    cases o with
    | none => cases hx
    | some o => cases o <;> cases hx
  | @takeFailed a g t f' hs o h =>
    have hr := transients_of_none h.failure?
    cases o with
    | none => cases hx
    | some o =>
      cases o with
      | error e => cases hx
      | ok _ =>
        cases hx
        show transients ([_, _, _] ++ hs) = 1
        rw [transients_append, hr]
        simp [transients, Reply.isTransient, Reply.failure?, hf]
  | _ => cases hx

/-- A round that ends the taking of a lock with a failure. -/
theorem Tried.surfaces {f : Failure} {x : LockRound} (h : Tried p r hs (some x)) (hx : x = .failed f ∨ x = .fatal f) :
    Surfaces p f hs := by
  generalize hy : some x = y at h
  cases h with
  | lookFailed f' =>
    cases hy
    obtain rfl : f' = f := by simpa using hx
    exact .call [] rfl (.look _ _ _ _)
  | grantFailed a f' =>
    cases hy
    obtain rfl : f' = f := by simpa using hx
    exact .call [_] rfl (.grant _ _ _)
  | @lost a g t u hu hs o h =>
    cases o with
    | none => cases hy
    | some o =>
      cases hy
      cases o with
      | ok _ => simp [LockRound.ofLost] at hx
      | error e =>
        obtain rfl : e = f := by simpa [LockRound.ofLost] using hx
        exact .lost [_] _ g t hu h
  | @takeFailed a g t f' hs o h =>
    cases o with
    | none => cases hy
    | some o =>
      cases hy
      obtain rfl : f' = f := by cases o <;> simpa [LockRound.ofFailed] using hx
      exact .call [_, _] rfl (.take [_] _ g t f' h)
  | start | looked a | granted a g => cases hy
  | held a => cases hy; simp at hx
  | taken a g t hu l => cases hy; simp at hx

variable {key : String} {deadline m : Nat}

/-- Nothing was heard, and at most the deadline has passed. -/
theorem Spends.nil {x : Option (Outcome Lock)}
    (hx : x = none ∨ x = some (.error (.lockDeadlineExceeded key)) ∧ deadline < now) :
    Spends p key deadline n [] x now where
  failures before e after f h := by cases before <;> cases h
  error f hf := by
    rcases hx with rfl | ⟨rfl, hd⟩
    · cases hf
    · cases hf
      exact .inr ⟨rfl, hd⟩
  ok l hl := by rcases hx with rfl | ⟨rfl, -⟩ <;> cases hl

theorem Spends.of_nil {x : Option (Outcome Lock)} (h : Spends p key deadline n [] x now) :
    x = none ∨ x = some (.error (.lockDeadlineExceeded key)) ∧ deadline < now := by
  cases x with
  | none => exact .inl rfl
  | some x =>
    cases x with
    | ok l =>
      obtain ⟨before, t, u, hs, -⟩ := h.ok l rfl
      cases before <;> cases hs
    | error f =>
      rcases h.error f rfl with hs | ⟨rfl, hd⟩
      · generalize hnil : ([] : List Reply) = us at hs
        cases hs with
        | @call before => cases before <;> cases hnil
        | lost before => cases before <;> cases hnil
      · exact .inr ⟨rfl, hd⟩

/-- What a last round makes of the taking of a lock, whether it has ended or not. -/
def LockRound.Ends (n : Nat) : Option LockRound → Option (Outcome Lock) → Prop
  | none, x => x = none
  | some (.taken l), x => x = some (.ok l)
  | some .contended, _ => False
  | some (.failed f), x => Retry.spend n f = none ∧ x = some (.error f)
  | some (.fatal f), x => x = some (.error f)

theorem Spends.of_round {o : Option LockRound} {x : Option (Outcome Lock)} (h : Tried p r hs o)
    (hx : LockRound.Ends n o x) : Spends p key deadline n hs x now where
  failures before e after f hs he := by
    obtain ⟨o', hc, rfl, ht⟩ := h.failure he hs
    refine ⟨after, [], o', (List.append_nil _).symm, hc, ?_⟩
    cases o' with
    | none => exact ⟨rfl, hx⟩
    | some o' =>
      cases o' with
      | ok _ =>
        obtain ⟨hn, rfl⟩ := hx
        have hstop : f.isTransient = false ∨ transients before = n ∨ ∃ g, (.ok () : Outcome Unit) = .error g := by
          cases hf : f.isTransient with
          | false => exact .inl rfl
          | true =>
            cases n with
            | zero => exact .inr (.inl ht)
            | succ n => simp [Retry.spend, hf] at hn
        exact ⟨⟨fun _ => hstop, fun _ => ⟨rfl, rfl⟩⟩, fun hns => absurd hstop hns⟩
      | error g =>
        obtain rfl := hx
        exact ⟨⟨fun _ => .inr (.inr ⟨g, rfl⟩), fun _ => ⟨rfl, rfl⟩⟩, fun hns => absurd (.inr (.inr ⟨g, rfl⟩)) hns⟩
  error f hf := by
    subst hf
    cases o with
    | none => cases hx
    | some o =>
      cases o with
      | taken l => cases hx
      | contended => exact hx.elim
      | failed g =>
        cases hx.2
        exact .inl (h.surfaces (.inl rfl))
      | fatal g =>
        cases hx
        exact .inl (h.surfaces (.inr rfl))
  ok l hl := by
    subst hl
    cases o with
    | none => cases hx
    | some o =>
      cases o with
      | taken l =>
        generalize ho : some (LockRound.taken l) = o at h
        cases h with
        | taken a g t hu l => exact ⟨[_, _], t, _, rfl, hu⟩
        | @lost a g t u hu hs o h =>
          cases o with
          | none => cases ho
          | some o => cases o <;> cases ho
        | @takeFailed a g t f' hs o h =>
          cases o with
          | none => cases ho
          | some o => cases o <;> cases ho
        | _ => cases ho
      | contended => exact hx.elim
      | failed g => cases hx.2
      | fatal g => cases hx

/-- A round after which there are others. -/
theorem Spends.after_round {us vs : List Reply} {a : LockRound} {x : Option (Outcome Lock)} (hu : Tried p r us (some a))
    (ha : a = .contended ∧ m = n ∨ ∃ f, a = .failed f ∧ Retry.spend n f = some m)
    (h : Spends p key deadline m vs x now) : Spends p key deadline n (us ++ vs) x now := by
  have hcount : transients us + m = n := by
    rcases ha with ⟨rfl, rfl⟩ | ⟨f, rfl, hf⟩
    · rw [hu.transients_contended, Nat.zero_add]
    · obtain ⟨rfl, ht⟩ := Retry.spend_eq_some_iff.1 hf
      rw [hu.transients_failed ht, Nat.add_comm]
  -- A failure of the later rounds is decided there, with what the first round left of the budget.
  have later : ∀ before e after f, vs = before ++ e :: after → e.failure? = some f →
      ∃ revokes rest o, after = revokes ++ rest ∧ Cleanup p (us ++ before) e revokes o ∧
        match o with
        | none => rest = [] ∧ x = none
        | some o => Decided (f.isTransient = false ∨ transients (us ++ before) = n ∨ ∃ g, o = .error g)
            key deadline f rest x now := by
    intro before e after f hs he
    obtain ⟨revokes, rest, o, hafter, hc, hd⟩ := h.failures before e after f hs he
    refine ⟨revokes, rest, o, hafter, hc.prepend, ?_⟩
    have hiff : transients (us ++ before) = n ↔ transients before = m := by
      rw [transients_append]
      omega
    rwa [hiff]
  refine ⟨fun before e after f hs he => ?_, fun f hf => (h.error f hf).imp .prepend id, fun l hl => ?_⟩
  · rcases List.append_eq_append_iff.1 hs with ⟨before', rfl, hvs⟩ | ⟨us', rfl, hvs⟩
    · exact later before' e after f hvs he
    · cases us' with
      | nil =>
        have := later [] e after f hvs.symm he
        simpa using this
      | cons e' us' =>
        obtain ⟨rfl, rfl⟩ := List.cons.inj hvs
        obtain ⟨o, hc, ho, ht⟩ := hu.failure he rfl
        obtain ⟨rfl, htransient, hn⟩ : o = some (.ok ()) ∧ f.isTransient = true ∧ n ≠ 0 := by
          cases o with
          | none => cases ho
          | some o =>
            cases ho
            cases o with
            | error g => simp [LockRound.ofFailed] at ha
            | ok _ =>
              obtain ⟨rfl, hf⟩ : n = m + 1 ∧ f.isTransient = true := by
                simpa [LockRound.ofFailed, Retry.spend_eq_some_iff] using ha
              exact ⟨rfl, hf, Nat.succ_ne_zero m⟩
        have hstop : ¬ (f.isTransient = false ∨ transients before = n ∨ ∃ g, (.ok () : Outcome Unit) = .error g) := by
          rintro (hf | hb | ⟨g, hg⟩)
          · rw [htransient] at hf
            cases hf
          · exact hn (hb.symm.trans ht)
          · cases hg
        refine ⟨us', vs, _, rfl, hc, ⟨fun ⟨hvs, hx⟩ => ?_, fun hs => absurd hs hstop⟩, fun _ hvs => (hvs ▸ h).of_nil⟩
        rcases (hvs ▸ h).of_nil with hnone | ⟨hlate, -⟩
        · cases hx.symm.trans hnone
        · cases hx.symm.trans hlate
          cases htransient
  · obtain ⟨before, t, u, rfl, hsucc⟩ := h.ok l hl
    exact ⟨us ++ before, t, u, (List.append_assoc ..).symm, hsucc⟩

theorem Course.spends {c : Client} {rounds : Nat} {q : Prog Call.Answer φ (Outcome Lock)}
    (h : Course (c.lockRounds r deadline rounds n) now hs q stop) :
    Spends c.policy r.key deadline n hs q.result? stop := by
  induction rounds generalizing n now hs with
  | zero =>
    have h : Course (.sleepUntil (deadline + 1) (.done (.error (.lockDeadlineExceeded r.key)))) now hs q stop := h
    cases h with
    | here => exact .nil (.inl rfl)
    | sleepUntil _ ht h =>
      obtain ⟨rfl, rfl, rfl⟩ := h.of_done
      exact .nil (.inr ⟨rfl, ht⟩)
  | succ rounds ih =>
    have h : Course (.clock fun now => _) now hs q stop := h
    cases h with
    | here => exact .nil (.inl rfl)
    | clock h =>
      have h : Course (if deadline < now then _ else _) now hs q stop := h
      split at h
      · rename_i hlate
        obtain ⟨rfl, rfl, rfl⟩ := h.of_done
        exact .nil (.inr ⟨rfl, hlate⟩)
      · rcases h.bind_cases with ⟨p', hp, hn, hq⟩ | ⟨a, t, us, vs, rfl, hp, hf⟩
        · exact .of_round (o := none) (hn ▸ hp.tried) hq
        · have hround : Tried c.policy r us (some a) := hp.tried
          -- What comes after the round's wait is the rounds that are left.
          have waited : ∀ {ms m : Nat}, Course (.sleep ms (c.lockRounds r deadline rounds m)) t vs q stop →
              Spends c.policy r.key deadline m vs q.result? stop := fun h => by
            cases h with
            | here => exact .nil (.inl rfl)
            | sleep _ h => exact ih h
          cases a with
          | taken l =>
            obtain ⟨rfl, rfl, -⟩ := hf.of_done
            rw [List.append_nil]
            exact .of_round hround rfl
          | fatal f =>
            obtain ⟨rfl, rfl, -⟩ := hf.of_done
            rw [List.append_nil]
            exact .of_round hround rfl
          | contended => exact .after_round hround (.inl ⟨rfl, rfl⟩) (waited hf)
          | failed f =>
            simp only at hf
            cases hm : Retry.spend n f with
            | none =>
              rw [hm] at hf
              obtain ⟨rfl, rfl, -⟩ := hf.of_done
              rw [List.append_nil]
              exact .of_round hround ⟨hm, rfl⟩
            | some m =>
              rw [hm] at hf
              exact .after_round hround (.inr ⟨f, rfl, hm⟩) (waited hf)

/-- Taking a lock spends its budget on transient failures alone. -/
theorem budget_spent {c : Client} {r : LockRequest} {start : Nat} {q : Prog Call.Answer φ (Outcome Lock)}
    (h : Course (c.acquireLock r).run start hs q stop) :
    Spends c.policy r.key (start + (r.withDefaults c.config.lock).timeout) c.policy.retries hs q.result? stop := by
  have h : Course (.clock fun now => _) start hs q stop := h
  cases h with
  | here => exact .nil (.inl rfl)
  | clock h => exact h.spends

/-- One retry is allowed. The first look fails and the next round meets a held lock; when the take of the third one
fails its lease is given back, and its failure is returned. -/
theorem budget_spent_take_failed :
    let failure := Failure.unavailable "leader lost"
    let hs : List Reply := [⟨.range (.single (Utf8.encode "k")) none, .error failure⟩,
      ⟨.range (.single (Utf8.encode "k")) none, .ok ⟨2, [⟨Utf8.encode "k", [], 2, 2, 1, 0⟩]⟩⟩,
      ⟨.range (.single (Utf8.encode "k")) none, .ok ⟨3, []⟩⟩, ⟨.leaseGrant 1, .ok ⟨1, 1⟩⟩,
      ⟨.txn (LockRequest.txn ⟨"k", 1, 5000, 100, []⟩ ⟨1, 1, ⟨0, 0⟩, 0⟩), .error failure⟩, ⟨.leaseRevoke 1, .ok ()⟩]
    Course ((Client.mk ⟨1, 50, 10000⟩ Config.standard).acquireLock ⟨"k", 1, 5000, 100, []⟩ :
        Action Call.Answer (fun _ => Unit) Lock).run 0 hs (.done (.error failure)) 150 ∧
      Spends ⟨1, 50, 10000⟩ "k" 5000 1 hs (some (.error failure)) 150 := by
  intro failure hs
  have h : Course ((Client.mk ⟨1, 50, 10000⟩ Config.standard).acquireLock ⟨"k", 1, 5000, 100, []⟩ :
      Action Call.Answer (fun _ => Unit) Lock).run 0 hs (.done (.error failure)) 150 := by
    refine .clock (.clock (.call (Nat.le_refl _) ?_))
    refine .sleep (t := 50) (by decide) (.clock (.call (Nat.le_refl _) ?_))
    refine .sleep (t := 150) (by decide) (.clock (.call (Nat.le_refl _) (.call (Nat.le_refl _) ?_)))
    exact .wallClock ⟨0, 0⟩ (.call (Nat.le_refl _) (.call (Nat.le_refl _) (.here _ _)))
  exact ⟨h, budget_spent h⟩

end Keyspace
