import Keyspace.Prog

/-!
# Programs: the laws of sequencing

Programs are a lawful monad, and running a sequence, to its end or until it is blocked, is running its
parts one after the other (`complete_bind`, `advance_bind`).
-/

namespace Keyspace.Prog

variable {ι : Type} {ρ φ : ι → Type} {α β γ W : Type}

@[simp] theorem done_bind (a : α) (f : α → Prog ρ φ β) : (done a).bind f = f a := rfl

@[simp] theorem bind_done (p : Prog ρ φ α) : p.bind done = p := by
  induction p <;> simp_all [bind]

theorem bind_assoc (p : Prog ρ φ α) (f : α → Prog ρ φ β) (g : β → Prog ρ φ γ) :
    (p.bind f).bind g = p.bind fun a => (f a).bind g := by
  induction p <;> simp_all [bind]

instance : LawfulMonad (Prog ρ φ) := LawfulMonad.mk' _
  (fun p => bind_done p) (fun _ _ => rfl) (fun p f g => bind_assoc p f g)

theorem result?_bind (p : Prog ρ φ α) (f : α → Prog ρ φ β) :
    (p.bind f).result? = p.result?.bind fun a => (f a).result? := by
  cases p <;> rfl

theorem eq_done_of_result? {p : Prog ρ φ (Outcome α)} {a : α} (h : p.result?.bind Except.toOption = some a) :
    p = done (.ok a) := by
  cases p with
  | done r =>
    cases r with
    | ok b => rw [Option.some.inj h]
    | error f => cases h
  | _ => cases h

theorem complete_bind (h : Env ρ φ W) (p : Prog ρ φ α) (f : α → Prog ρ φ β) (w : W) :
    complete h (p.bind f) w = (complete h p w).bind fun r => complete h (f r.1) r.2 := by
  induction p generalizing w with
  | done a => rfl
  | call t i k ih =>
    simp only [bind, complete]
    cases h.finish i (h.start t i w).1 (h.start t i w).2 with
    | none => rfl
    | some r => exact ih r.1 r.2
  | await i c k ih =>
    simp only [bind, complete]
    cases h.finish i c w with
    | none => rfl
    | some r => exact ih r.1 r.2
  | sleep ms p ih => exact ih _
  | sleepUntil t p ih => exact ih _
  | clock k ih => exact ih _ w
  | wallClock k ih => exact ih _ w

theorem advance_bind (h : Env ρ φ W) (p : Prog ρ φ α) (f : α → Prog ρ φ β) : ∀ w : W,
    advance h (p.bind f) w =
      match (advance h p w).1.result? with
      | some a => advance h (f a) (advance h p w).2
      | none => ((advance h p w).1.bind f, (advance h p w).2) := by
  induction p with
  | done a => exact fun _ => rfl
  | call t i k ih =>
    intro w
    simp only [bind, advance]
    rcases h.poll i (h.start t i w).1 (h.start t i w).2 with ⟨c | r, w'⟩
    · rfl
    · exact ih r w'
  | await i c k ih =>
    intro w
    simp only [bind, advance]
    rcases h.poll i c w with ⟨c' | r, w'⟩
    · rfl
    · exact ih r w'
  | sleep ms p ih =>
    intro w
    simp only [bind, advance]
    split
    · exact ih w
    · rfl
  | sleepUntil t p ih =>
    intro w
    simp only [bind, advance]
    split
    · exact ih w
    · rfl
  | clock k ih => exact fun w => ih _ w
  | wallClock k ih => exact fun w => ih _ w

end Keyspace.Prog
