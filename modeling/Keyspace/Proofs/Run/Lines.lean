import Keyspace.Proofs.Lock.Release

/-!
# The lines of a run

What holds of a program's lines at each of its steps, whatever is heard of its calls, holds of its lines in the
ledger of a run beside others (`Ledger.Reached.throughout`). A line that was answered is true to the store that it
found (`Ledger.Reached.honest`).
-/

namespace Keyspace

open Ledger (Line)

/-! ## Sequences -/

namespace Action

variable {φ : Call → Type} {α β S : Type} {serves : (c : Call) → S → Outcome c.Answer → S → Prop}

theorem throughout_bind {a : Action Call.Answer φ α} {f : α → Action Call.Answer φ β}
    {P : Option (Outcome α) → S → Prop} {Q : Option (Outcome β) → S → Prop} {s : S}
    (h : a.run.Throughout serves P s) (hnone : ∀ s, P none s → Q none s)
    (herror : ∀ e s, P (some (.error e)) s → Q (some (.error e)) s)
    (hok : ∀ x s, P (some (.ok x)) s → (f x).run.Throughout serves Q s) : (a >>= f).run.Throughout serves Q s := by
  rw [run_bind]
  refine .bind (h.mono fun o s ho => ?_)
  cases o with
  | none => exact hnone s ho
  | some r =>
    cases r with
    | ok x => exact hok x s ho
    | error e => exact herror e s ho

end Action

/-! ## One call -/

/-- The lines are those before and then some of the call `c`; what it ends with was heard in the last. -/
structure Asks (c : Call) (before : List Line) (o : Option (Outcome c.Answer)) (ls : List Line) : Prop where
  calls : ∃ new, ls = before ++ new ∧ ∀ e ∈ new, e.call = c
  heard : ∀ r, o = some r → ∃ us now found reached, ls = us ++ [⟨now, c, found, reached, r⟩]

theorem Client.throughout_call {φ : Call → Type} (cl : Client) (c : Call) (before : List Line) :
    (cl.call c : Action Call.Answer φ c.Answer).run.Throughout Logs (Asks c before) before := by
  let Made : List Line → Prop := fun ls => ∃ new, ls = before ++ new ∧ ∀ e ∈ new, e.call = c
  have more : ∀ {ls r ls'}, Made ls → Logs c ls r ls' → Made ls' ∧ Asks c before (some r) ls' := by
    rintro ls r _ ⟨new, rfl, hnew⟩ ⟨now, found, reached, rfl⟩
    have hmade : Made (before ++ new ++ [⟨now, c, found, reached, r⟩]) :=
      ⟨new ++ [_], List.append_assoc .., List.forall_mem_append.2 ⟨hnew, List.forall_mem_singleton.2 rfl⟩⟩
    refine ⟨hmade, hmade, fun x hx => ?_⟩
    cases hx
    exact ⟨_, now, found, reached, rfl⟩
  exact Prog.Throughout.runWith (P := Made) (fun h => ⟨h, nofun⟩) (fun h hr => (more h hr).2)
    (fun h hr => more h hr) _ ⟨[], (List.append_nil _).symm, List.forall_mem_nil _⟩

/-! ## Calls of one kind -/

/-- The setting of programs that make only calls of one kind. -/
def asking (P : Call → Prop) : Setting Unit where
  may _ c := P c
  serves _ _ _ _ := True
  others _ _ := True
  refl _ := trivial
  trans _ _ := trivial

section
variable {φ : Call → Type} {α β : Type} {P : Call → Prop}

/-- The program makes no calls but those. -/
abbrev Prog.OnlyCalls (P : Call → Prop) (p : Prog Call.Answer φ α) : Prop := p.Ensures (asking P) (fun _ _ => True) ()

theorem Client.onlyCalls_call (cl : Client) {c : Call} (h : P c) :
    (cl.call c : Action Call.Answer φ c.Answer).run.OnlyCalls P :=
  Prog.Ensures.runWith (P := fun _ => True) (fun _ _ => trivial) (fun _ _ => trivial) (fun _ => h)
    (fun _ _ => ⟨trivial, fun _ _ => trivial⟩) cl.policy.retries trivial

theorem Prog.Ensures.asking_mono {P' : Call → Prop} {p : Prog Call.Answer φ α} {Q : α → Unit → Prop}
    (h : p.Ensures (asking P) Q ()) (hP : ∀ c, P c → P' c) : p.Ensures (asking P') Q () := by
  induction p with
  | done a => exact h
  | call _ i k ih | await i _ k ih =>
    obtain ⟨hi, hk⟩ := h () trivial
    exact fun _ _ => ⟨hP i hi, fun r _ _ => ih r (hk r () trivial)⟩
  | sleep _ p ih | sleepUntil _ p ih => exact ih h
  | clock k ih | wallClock k ih => exact fun n => ih n (h n)

theorem Action.onlyCalls_bind {a : Action Call.Answer φ α} {f : α → Action Call.Answer φ β} (h : a.run.OnlyCalls P)
    (hf : ∀ x, (f x).run.OnlyCalls P) : (a >>= f).run.OnlyCalls P :=
  Action.ensures_seq (fun _ _ => trivial) h fun x _ => hf x

theorem Prog.Ensures.throughout_asking {p : Prog Call.Answer φ α} {Q : α → Unit → Prop} (h : p.Ensures (asking P) Q ())
    (before : List Line) : ∀ {ls : List Line}, (∃ new, ls = before ++ new ∧ ∀ e ∈ new, P e.call) →
      p.Throughout Logs (fun _ ls => ∃ new, ls = before ++ new ∧ ∀ e ∈ new, P e.call) ls := by
  induction p with
  | done a => exact fun hls => hls
  | call _ i k ih | await i _ k ih =>
    rintro _ ⟨new, rfl, hnew⟩
    obtain ⟨hi, hk⟩ := h () trivial
    refine ⟨⟨new, rfl, hnew⟩, ?_⟩
    rintro r _ ⟨now, found, reached, rfl⟩
    exact ih r (hk r () trivial) ⟨new ++ [_], List.append_assoc ..,
      List.forall_mem_append.2 ⟨hnew, List.forall_mem_singleton.2 hi⟩⟩
  | sleep _ p ih | sleepUntil _ p ih => exact fun hls => ⟨hls, ih h hls⟩
  | clock k ih | wallClock k ih => exact fun hls => ⟨hls, fun n => ih n (h n) hls⟩

end

namespace Ledger

/-! ## Ledgers -/

/-- What the call makes of the store, if it gets there. -/
def Line.made (e : Line) : Store := (e.found.answer e.now e.call).2

/-- What was found is a store that is reached, and an answer that was heard is the store's. -/
structure Line.Honest (e : Line) : Prop where
  found : ∃ b : Backend, b.Reached ∧ b.store = e.found
  answered : ∀ a, e.heard = .ok a → e.reached = true ∧ (e.found.answer e.now e.call).1 = .ok a

theorem Line.Honest.sound {e : Line} (h : e.Honest) : e.found.Sound := by
  obtain ⟨b, hb, he⟩ := h.found
  exact he ▸ hb.sound

variable {φ : Call → Type} {α : Type} {b : Backend} {p₀ p : Prog Call.Answer φ α} {σ : Ledger}

theorem Reached.throughout {Q : Option α → List Line → Prop} (h : Reached b p₀ p σ) (hp : p₀.Throughout Logs Q []) :
    p.Throughout Logs Q σ.lines := by
  induction h with
  | start => exact hp
  | turn _ t ih => exact ih.step t fun c => ⟨_, _, _, rfl⟩
  | other _ now m ih => exact ih

theorem honest_serve {σ : Ledger} (hb : σ.backend.Reached) (h : ∀ e ∈ σ.lines, e.Honest) (t : Turn) (c : Call) :
    ∀ e ∈ (σ.serve t c).2.lines, e.Honest := by
  refine List.forall_mem_append.2 ⟨h, List.forall_mem_singleton.2 ⟨⟨σ.backend, hb, rfl⟩, fun a ha => ?_⟩⟩
  cases hr : σ.backend.reaches t c with
  | true => exact ⟨rfl, (Backend.serve_of_reaches hr).2 a ha⟩
  | false => exact absurd ha ((Backend.serve_of_not_reaches hr).2 a)

theorem Reached.honest (h : Reached b p₀ p σ) (hb : b.Reached) : ∀ e ∈ σ.lines, e.Honest := by
  induction h with
  | start => exact List.forall_mem_nil _
  | @turn p σ h t ih =>
    exact Prog.step_inv (I := fun σ : Ledger => ∀ e ∈ σ.lines, e.Honest) ih (honest_serve (h.backend hb) ih t) t p
  | other _ now m ih => exact ih

end Ledger

end Keyspace
