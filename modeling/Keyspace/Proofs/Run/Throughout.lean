import Keyspace.Proofs.Run.Ensures

/-!
# What holds throughout a program

`Throughout Q p s` holds if `Q` does at every step of `p` that is begun in `s`, of the state that its calls have led to
by then and of the result, if it has ended. Unlike `Ensures` it says that a program has ended, and not only what
it ends with. A sequence has it if the second part does wherever the first one ends (`Throughout.bind`).
-/

namespace Keyspace.Prog

variable {φ : Call → Type} {α β S T : Type}

def Throughout (serves : (c : Call) → S → Outcome c.Answer → S → Prop) (Q : Option α → S → Prop) :
    Prog Call.Answer φ α → S → Prop
  | done a, s => Q (some a) s
  | call _ i k, s | await i _ k, s => Q none s ∧ ∀ r t, serves i s r t → (k r).Throughout serves Q t
  | sleep _ p, s | sleepUntil _ p, s => Q none s ∧ p.Throughout serves Q s
  | clock k, s => Q none s ∧ ∀ n, (k n).Throughout serves Q s
  | wallClock k, s => Q none s ∧ ∀ d, (k d).Throughout serves Q s

namespace Throughout

variable {serves : (c : Call) → S → Outcome c.Answer → S → Prop} {Q Q' : Option α → S → Prop}
  {p : Prog Call.Answer φ α} {s : S}

theorem now (h : p.Throughout serves Q s) : Q p.result? s := by
  cases p with
  | done a => exact h
  | _ => exact h.1

theorem mono (h : p.Throughout serves Q s) (hQ : ∀ o s, Q o s → Q' o s) : p.Throughout serves Q' s := by
  induction p generalizing s with
  | done a => exact hQ _ _ h
  | call _ i k ih | await i _ k ih => exact ⟨hQ _ _ h.1, fun r t ht => ih r (h.2 r t ht)⟩
  | sleep _ p ih | sleepUntil _ p ih => exact ⟨hQ _ _ h.1, ih h.2⟩
  | clock k ih => exact ⟨hQ _ _ h.1, fun n => ih n (h.2 n)⟩
  | wallClock k ih => exact ⟨hQ _ _ h.1, fun d => ih d (h.2 d)⟩

theorem bind {f : α → Prog Call.Answer φ β} {Q : Option β → S → Prop}
    (h : p.Throughout serves (fun o s => o.elim (Q none s) fun a => (f a).Throughout serves Q s) s) :
    (p.bind f).Throughout serves Q s := by
  induction p generalizing s with
  | done a => exact h
  | call _ i k ih | await i _ k ih => exact ⟨h.1, fun r t ht => ih r (h.2 r t ht)⟩
  | sleep _ p ih | sleepUntil _ p ih => exact ⟨h.1, ih h.2⟩
  | clock k ih => exact ⟨h.1, fun n => ih n (h.2 n)⟩
  | wallClock k ih => exact ⟨h.1, fun d => ih d (h.2 d)⟩

/-- The run is in a state of its own, of which the state is a part. -/
theorem step {serve : (c : Call) → T → Outcome c.Answer × T} {f : T → S} {x : T}
    (h : p.Throughout serves Q (f x)) (t : Turn)
    (hs : ∀ i, serves i (f x) (serve i x).1 (f (serve i x).2)) :
    (p.step serve t x).1.Throughout serves Q (f (p.step serve t x).2) := by
  cases p with
  | done a => exact h
  | call _ i k | await i _ k => exact h.2 _ _ (hs i)
  | sleep _ p | sleepUntil _ p => exact h.2
  | clock k => exact h.2 t.now
  | wallClock k => exact h.2 t.today

/-- `P` holds before each attempt, and a call ends with an answer or with the failure of the last one. -/
theorem runWith {policy : Retry.Policy} {i : Call} {Q : Option (Outcome i.Answer) → S → Prop} {P : S → Prop}
    (hP : ∀ {s}, P s → Q none s) (hok : ∀ {s a t}, P s → serves i s (.ok a) t → Q (some (.ok a)) t)
    (herror : ∀ {s f t}, P s → serves i s (.error f) t → P t ∧ Q (some (.error f)) t) :
    ∀ (n : Nat) {s : S}, P s → (policy.runWith i n : Prog Call.Answer φ _).Throughout serves Q s := by
  intro n
  induction n with
  | zero =>
    intro s h
    refine ⟨hP h, fun r t ht => ?_⟩
    cases r with
    | ok a => exact hok h ht
    | error f => exact (herror h ht).2
  | succ n ih =>
    intro s h
    refine ⟨hP h, fun r t ht => ?_⟩
    cases r with
    | ok a => exact hok h ht
    | error f =>
      obtain ⟨hp, hf⟩ := herror h ht
      simp only
      split
      · exact ⟨hP hp, ih hp⟩
      · exact hf

end Throughout

end Keyspace.Prog
