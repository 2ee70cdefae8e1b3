import Keyspace.Proofs.Run.Leases
import Keyspace.Proofs.Run.Visit

/-!
# Arenas

An arena is a backend with a clock, seen by one program: each of its calls gets to the backend and is answered. Where
no fault is injected the answer is the store's.
-/

namespace Keyspace

/-- The lease that a visit was granted. -/
def Visit.granted? : Visit → Option Int
  | ⟨now, .leaseGrant ttl, s⟩ => (s.answer now (.leaseGrant ttl)).1.toOption.map (·.id)
  | _ => none

theorem Visit.answer_of_granted? {now : Nat} {ttl lease : Int} {s : Store}
    (h : Visit.granted? ⟨now, .leaseGrant ttl, s⟩ = some lease) :
    ∃ g : LeaseAnswer, (s.answer now (.leaseGrant ttl)).1 = .ok g ∧ g.id = lease := by
  obtain ⟨g, hg, hid⟩ := Option.map_eq_some_iff.1 h
  cases ha : (s.answer now (.leaseGrant ttl)).1 with
  | error f =>
    rw [ha] at hg
    cases hg
  | ok g' =>
    rw [ha] at hg
    cases hg
    exact ⟨g, rfl, hid⟩

structure Arena where
  backend : Backend
  now : Nat
  /-- The program's visits, the oldest first. -/
  visits : List Visit

namespace Backend

variable {b : Backend}

theorem Reached.moves (ms : List (Nat × Move)) (h : b.Reached) : (b.moves ms).Reached :=
  moves_inv (fun now m h => h.move now m) ms h

theorem unfaulted_answer (h : b.faults = []) (now : Nat) (c : Call) : (b.answer now c).2.faults = [] := by
  simp [answer, h, meetFault]

theorem unfaulted_move (h : b.faults = []) (now : Nat) {m : Move} (hm : ∀ rule, m ≠ .fail rule) :
    (b.move now m).faults = [] := by
  cases m with
  | call c => exact unfaulted_answer h now c
  | fail rule => exact absurd rfl (hm rule)
  | clearFaults => rfl
  | _ => exact h

theorem unfaulted_moves (ms : List (Nat × Move)) : ∀ {b : Backend}, b.faults = [] →
    (∀ m ∈ ms, ∀ rule, m.2 ≠ .fail rule) → (b.moves ms).faults = [] := by
  induction ms with
  | nil => exact fun h _ => h
  | cons m ms ih =>
    exact fun h hm => ih (unfaulted_move h m.1 (hm m List.mem_cons_self)) fun m' h' => hm m' (List.mem_cons_of_mem _ h')

theorem deadline?_moves {lease : Int} {due : Nat} (ms : List (Nat × Move)) : ∀ {b : Backend}, b.Reached →
    b.store.deadline? lease = some due → (∀ m ∈ ms, m.1 < due ∧ m.2 ≠ .call (.leaseRevoke lease)) →
    (b.moves ms).store.deadline? lease = some due := by
  induction ms with
  | nil => exact fun _ hd _ => hd
  | cons m ms ih =>
    intro b hb hd hm
    obtain ⟨hn, hne⟩ := hm m List.mem_cons_self
    exact ih (hb.move m.1 m.2) (deadline?_move hb.sound hb.bindsAll hd hn hne)
      fun m' h' => hm m' (List.mem_cons_of_mem _ h')

end Backend

namespace Arena

abbrev store (w : Arena) : Store := w.backend.store

def serve (c : Call) (w : Arena) : Outcome c.Answer × Arena :=
  ((w.backend.answer w.now c).1, ⟨(w.backend.answer w.now c).2, w.now, w.visits ++ [⟨w.now, c, w.store⟩]⟩)

@[simp] theorem now_serve (c : Call) (w : Arena) : (w.serve c).2.now = w.now := rfl

@[simp] theorem visits_serve (c : Call) (w : Arena) : (w.serve c).2.visits = w.visits ++ [⟨w.now, c, w.store⟩] := rfl

/-- No fault is injected. -/
structure Fair (w : Arena) : Prop where
  reached : w.backend.Reached
  unfaulted : w.backend.faults = []

variable {w : Arena}

theorem Fair.serve (h : w.Fair) (c : Call) :
    (w.serve c).2.Fair ∧ (w.serve c).1 = (w.store.answer w.now c).1 ∧
      (w.serve c).2.store = (w.store.answer w.now c).2 := by
  obtain ⟨h₁, h₂⟩ := Backend.answer_of_unfaulted (b := w.backend) (c := c) w.now (by rw [h.unfaulted]; rfl)
  exact ⟨⟨h.reached.move w.now (.call c), Backend.unfaulted_answer h.unfaulted w.now c⟩, h₁, h₂⟩

theorem Fair.revokes {lease : Int} {due : Nat} (h : w.Fair) (hn : w.now < due)
    (hd : w.store.deadline? lease = some due) : (w.serve (.leaseRevoke lease)).1 = .ok () := by
  obtain ⟨l, hl, rfl⟩ := Option.map_eq_some_iff.1 hd
  exact (Backend.answer_leaseRevoke_of_live h.reached.sound h.reached.bindsAll (by rw [h.unfaulted]; rfl) hl hn).1

end Arena

end Keyspace
