import Keyspace.Proofs.Run.Move
import Keyspace.Prog.Lemmas
import Keyspace.Retry.Run

/-!
# What programs ensure

A setting says which calls may be made in a state, what may become of them, and what others may do to
the state in between. `Ensures Q p s` holds if `p`, begun in `s`, makes only calls that it may make and
ends in states that satisfy `Q`, whatever becomes of its calls and whatever others do. Programs put
together ensure what their parts do (`Ensures.bind`), and a call that is made again and again what one
attempt does (`Ensures.runWith`).
-/

namespace Keyspace

structure Setting (S : Type) where
  may : S → Call → Prop
  serves : (c : Call) → S → Outcome c.Answer → S → Prop
  others : S → S → Prop
  refl : ∀ s, others s s
  trans : ∀ {s t u}, others s t → others t u → others s u

namespace Prog

variable {φ : Call → Type} {α β S T : Type}

theorem step_inv {serve : (c : Call) → S → Outcome c.Answer × S} {I : S → Prop} {s : S} (hI : I s)
    (hs : ∀ i, I (serve i s).2) (t : Turn) (p : Prog Call.Answer φ α) : I (p.step serve t s).2 := by
  cases p with
  | call _ i k | await i _ k => exact hs i
  | _ => exact hI

def Ensures (Γ : Setting S) (Q : α → S → Prop) : Prog Call.Answer φ α → S → Prop
  | done a, s => ∀ s', Γ.others s s' → Q a s'
  | call _ i k, s => ∀ s', Γ.others s s' →
      Γ.may s' i ∧ ∀ r s'', Γ.serves i s' r s'' → (k r).Ensures Γ Q s''
  | await i _ k, s => ∀ s', Γ.others s s' →
      Γ.may s' i ∧ ∀ r s'', Γ.serves i s' r s'' → (k r).Ensures Γ Q s''
  | sleep _ p, s => p.Ensures Γ Q s
  | sleepUntil _ p, s => p.Ensures Γ Q s
  | clock k, s => ∀ t, (k t).Ensures Γ Q s
  | wallClock k, s => ∀ t, (k t).Ensures Γ Q s

namespace Ensures

variable {Γ : Setting S} {Q Q' : α → S → Prop} {p : Prog Call.Answer φ α} {s s' : S}

theorem others (h : p.Ensures Γ Q s) (ho : Γ.others s s') : p.Ensures Γ Q s' := by
  induction p with
  | done a => exact fun t ht => h t (Γ.trans ho ht)
  | call _ i k _ => exact fun t ht => h t (Γ.trans ho ht)
  | await i _ k _ => exact fun t ht => h t (Γ.trans ho ht)
  | sleep _ p ih => exact ih h
  | sleepUntil _ p ih => exact ih h
  | clock k ih => exact fun t => ih t (h t)
  | wallClock k ih => exact fun t => ih t (h t)

theorem bind {f : α → Prog Call.Answer φ β} {R : β → S → Prop} (h : p.Ensures Γ Q s)
    (hf : ∀ a s', Q a s' → (f a).Ensures Γ R s') : (p.bind f).Ensures Γ R s := by
  induction p generalizing s with
  | done a => exact hf a s (h s (Γ.refl s))
  | call _ i k ih => exact fun t ht => ⟨(h t ht).1, fun r u hu => ih r ((h t ht).2 r u hu)⟩
  | await i _ k ih => exact fun t ht => ⟨(h t ht).1, fun r u hu => ih r ((h t ht).2 r u hu)⟩
  | sleep _ p ih => exact ih h
  | sleepUntil _ p ih => exact ih h
  | clock k ih => exact fun t => ih t (h t)
  | wallClock k ih => exact fun t => ih t (h t)

theorem mono (h : p.Ensures Γ Q s) (hq : ∀ a s', Q a s' → Q' a s') : p.Ensures Γ Q' s := by
  induction p generalizing s with
  | done a => exact fun t ht => hq a t (h t ht)
  | call _ i k ih => exact fun t ht => ⟨(h t ht).1, fun r u hu => ih r ((h t ht).2 r u hu)⟩
  | await i _ k ih => exact fun t ht => ⟨(h t ht).1, fun r u hu => ih r ((h t ht).2 r u hu)⟩
  | sleep _ p ih => exact ih h
  | sleepUntil _ p ih => exact ih h
  | clock k ih => exact fun t => ih t (h t)
  | wallClock k ih => exact fun t => ih t (h t)

/-- What holds in one setting holds in another that, where `P` does, can be seen as the first. -/
theorem transfer {Δ : Setting T} {P : S → T → Prop}
    (hothers : ∀ {s s' t}, P s t → Γ.others s s' → ∃ t', Δ.others t t' ∧ P s' t')
    (hserves : ∀ {s t i}, P s t → Δ.may t i →
      Γ.may s i ∧ ∀ r s', Γ.serves i s r s' → ∃ t', Δ.serves i t r t' ∧ P s' t')
    {q : α → T → Prop} {t : T} (h : p.Ensures Δ q t) (hP : P s t) :
    p.Ensures Γ (fun a s => ∃ t, P s t ∧ q a t) s := by
  induction p generalizing s t with
  | done a =>
    intro s' hs
    obtain ⟨t', ht, hP'⟩ := hothers hP hs
    exact ⟨t', hP', h t' ht⟩
  | call _ i k ih | await i _ k ih =>
    intro s' hs
    obtain ⟨t', ht, hP'⟩ := hothers hP hs
    obtain ⟨hm, hk⟩ := hserves hP' (h t' ht).1
    refine ⟨hm, fun r s'' hr => ?_⟩
    obtain ⟨t'', ht', hP''⟩ := hk r s'' hr
    exact ih r ((h t' ht).2 r t'' ht') hP''
  | sleep _ p ih => exact ih h hP
  | sleepUntil _ p ih => exact ih h hP
  | clock k ih => exact fun n => ih n (h n) hP
  | wallClock k ih => exact fun n => ih n (h n) hP

/-! ## Steps -/

/-- A setting whose state stands beside that of the run, as `I` says. -/
theorem step_beside (serve : (c : Call) → S → Outcome c.Answer × S) (I : T → S → Prop) {Δ : Setting T}
    {q : α → T → Prop} {u : T} (h : p.Ensures Δ q u) (t : Turn) (hI : I u s)
    (hs : ∀ i, Δ.may u i → ∃ u', Δ.serves i u (serve i s).1 u' ∧ I u' (serve i s).2) :
    ∃ u', I u' (p.step serve t s).2 ∧ (p.step serve t s).1.Ensures Δ q u' := by
  cases p with
  | done a => exact ⟨u, hI, h⟩
  | call _ i k | await i _ k =>
    obtain ⟨hm, hk⟩ := h u (Δ.refl u)
    obtain ⟨u', hu, hI'⟩ := hs i hm
    exact ⟨u', hI', hk _ u' hu⟩
  | sleep _ p => exact ⟨u, hI, h⟩
  | sleepUntil _ p => exact ⟨u, hI, h⟩
  | clock k => exact ⟨u, hI, h t.now⟩
  | wallClock k => exact ⟨u, hI, h t.today⟩

variable {serve : (c : Call) → S → Outcome c.Answer × S}

theorem step (h : p.Ensures Γ Q s) (t : Turn)
    (hs : ∀ i, Γ.may s i → Γ.serves i s (serve i s).1 (serve i s).2) :
    (p.step serve t s).1.Ensures Γ Q (p.step serve t s).2 := by
  cases p with
  | done a => exact h
  | call _ i k | await i _ k =>
    obtain ⟨hm, hk⟩ := h s (Γ.refl s)
    exact hk _ _ (hs i hm)
  | sleep _ p => exact h
  | sleepUntil _ p => exact h
  | clock k => exact h t.now
  | wallClock k => exact h t.today

theorem step_keeps {I : S → Prop} (h : p.Ensures Γ Q s) (t : Turn) (hI : I s)
    (hs : ∀ i, Γ.may s i → I (serve i s).2) : I (p.step serve t s).2 := by
  cases p with
  | call _ i k | await i _ k => exact hs i (h s (Γ.refl s)).1
  | _ => exact hI

theorem may_of_asks? (h : p.Ensures Γ Q s) {i : Call} (hi : p.asks? = some i) : Γ.may s i := by
  cases p with
  | call _ i k | await i _ k =>
    cases hi
    exact (h s (Γ.refl s)).1
  | _ => cases hi

/-- A setting without a state stands for every state in which calls are served as it says. -/
theorem step_unit {Δ : Setting Unit} {q : α → Unit → Prop} (h : p.Ensures Δ q ()) (t : Turn) (s : S)
    (hs : ∀ i, Δ.serves i () (serve i s).1 ()) : (p.step serve t s).1.Ensures Δ q () := by
  cases p with
  | done a => exact h
  | call _ i k | await i _ k => exact (h () (Δ.refl ())).2 _ () (hs i)
  | sleep _ p => exact h
  | sleepUntil _ p => exact h
  | clock k => exact h t.now
  | wallClock k => exact h t.today

/-! ## Calls under a policy -/

/-- If `P` holds whenever an attempt begins and after each that fails, retries do no harm. -/
theorem runWith {P : S → Prop} {policy : Retry.Policy} {i : Call} {Q : Outcome i.Answer → S → Prop}
    (hP : ∀ {s s'}, P s → Γ.others s s' → P s') (hQ : ∀ {r s s'}, Q r s → Γ.others s s' → Q r s')
    (hm : ∀ {s}, P s → Γ.may s i)
    (hs : ∀ {s r s'}, P s → Γ.serves i s r s' → Q r s' ∧ (∀ f, r = .error f → P s')) :
    ∀ (n : Nat) {s : S}, P s → Ensures (φ := φ) Γ Q (policy.runWith i n) s := by
  intro n
  induction n with
  | zero =>
    intro s h s' hs'
    refine ⟨hm (hP h hs'), fun r s'' hr s''' ho => hQ (hs (hP h hs') hr).1 ho⟩
  | succ n ih =>
    intro s h s' hs'
    refine ⟨hm (hP h hs'), fun r s'' hr => ?_⟩
    obtain ⟨hq, hp⟩ := hs (hP h hs') hr
    cases r with
    | ok a => exact fun s''' ho => hQ hq ho
    | error f =>
      simp only
      split
      · exact ih (hp f rfl)
      · exact fun s''' ho => hQ hq ho

/-- A call whose failures are final is made once. -/
theorem runWith_once {policy : Retry.Policy} {i : Call} {Q : Outcome i.Answer → S → Prop} (n : Nat)
    (h : Ensures (φ := φ) Γ (fun r s => Q r s ∧ ∀ f, r = .error f → f.isTransient = false) (policy.attempt i) s) :
    Ensures (φ := φ) Γ Q (policy.runWith i n) s := by
  cases n with
  | zero => exact h.mono fun _ _ hr => hr.1
  | succ n =>
    intro s' hs'
    refine ⟨(h s' hs').1, fun r s'' hr => ?_⟩
    have hend := (h s' hs').2 r s'' hr
    cases r with
    | ok a => exact fun t ht => (hend t ht).1
    | error f =>
      simp only
      rw [if_neg (by simp [(hend s'' (Γ.refl s'')).2 f rfl])]
      exact fun t ht => (hend t ht).1

end Ensures

end Prog

/-! ## Programs that can fail -/

namespace Action

variable {φ : Call → Type} {α β S : Type} {Γ : Setting S}

theorem run_bind (a : Action Call.Answer φ α) (f : α → Action Call.Answer φ β) :
    (a >>= f).run = a.run.bind fun
      | .ok x => (f x).run
      | .error e => .done (.error e) := by
  show Prog.bind a _ = _
  congr 1
  funext r
  cases r <;> rfl

/-- A sequence ensures of its failures what the first part does, and of the rest what the second does. -/
theorem ensures_bind {a : Action Call.Answer φ α} {f : α → Action Call.Answer φ β} {s : S}
    {Q : α → S → Prop} {R : Outcome β → S → Prop}
    (hR : ∀ {e s s'}, R (.error e) s → Γ.others s s' → R (.error e) s')
    (h : a.run.Ensures Γ (fun r s => match r with | .ok x => Q x s | .error e => R (.error e) s) s)
    (hf : ∀ x s', Q x s' → (f x).run.Ensures Γ R s') : (a >>= f).run.Ensures Γ R s := by
  rw [run_bind]
  apply h.bind
  intro r s' hr
  cases r with
  | ok x => exact hf x s' hr
  | error e => exact fun s'' ho => hR hr ho

/-- Ends well with `Q`, or fails with `E`. -/
def Ends (Q : α → S → Prop) (E : S → Prop) : Outcome α → S → Prop
  | .ok a, s => Q a s
  | .error _, s => E s

theorem ensures_then {a : Action Call.Answer φ α} {f : α → Action Call.Answer φ β} {s : S}
    {Q : α → S → Prop} {R : β → S → Prop} {E : S → Prop} (hE : ∀ {s s'}, E s → Γ.others s s' → E s')
    (h : a.run.Ensures Γ (Ends Q E) s) (hf : ∀ x s', Q x s' → (f x).run.Ensures Γ (Ends R E) s') :
    (a >>= f).run.Ensures Γ (Ends R E) s := by
  refine ensures_bind (Q := Q) (fun h ho => hE h ho) (h.mono fun r s' hr => ?_) hf
  cases r with
  | ok x => exact hr
  | error e => exact hr

/-- Where nothing is said of failures, what the second part ensures after the first ended well is all there is. -/
theorem ensures_ok {a : Action Call.Answer φ α} {f : α → Action Call.Answer φ β} {s : S}
    {Q : Outcome α → S → Prop} {R : Outcome β → S → Prop} (hR : ∀ e s, R (.error e) s) (h : a.run.Ensures Γ Q s)
    (hf : ∀ x s', Q (.ok x) s' → (f x).run.Ensures Γ R s') : (a >>= f).run.Ensures Γ R s := by
  refine ensures_bind (Q := fun x s => Q (.ok x) s) (fun _ _ => hR _ _) (h.mono fun r s' hr => ?_) hf
  cases r with
  | ok x => exact hr
  | error e => exact hR e s'

theorem ensures_seq {a : Action Call.Answer φ α} {f : α → Action Call.Answer φ β} {s : S}
    {R : Outcome β → S → Prop} (hR : ∀ e s, R (.error e) s) (h : a.run.Ensures Γ (fun _ _ => True) s)
    (hf : ∀ x s', (f x).run.Ensures Γ R s') : (a >>= f).run.Ensures Γ R s :=
  ensures_ok hR h fun x s' _ => hf x s'

end Action

end Keyspace
