import Keyspace.Proofs.Store.Answer
import Keyspace.Prog

/-!
# Runs against a backend

A backend changes by moves, whoever makes them and at whatever time. A program goes on by steps: in
each a call that it makes meets a fate, or a wait ends, or a clock is read; between two steps of one
program anything else may move the backend.
-/

namespace Keyspace

/-! ## Moves -/

inductive Move
  | call (c : Call)
  | compact (revision : Int)
  | fail (rule : FaultRule)
  | clearFaults
  | countLeases
  | takeNext (feed : FeedId)
  | closeFeed (feed : FeedId)
  | setResponsive (member : String) (responsive : Bool)
  | setLearner (member : String) (learner : Bool)

def Move.Writes : Move → Bytes → Prop
  | .call c, k => c.Writes k
  | _, _ => False

namespace Backend

def move (b : Backend) (now : Nat) : Move → Backend
  | .call c => (b.answer now c).2
  | .compact revision => { b with store := b.store.compact revision }
  | .fail rule => b.fail rule
  | .clearFaults => { b with faults := [] }
  | .countLeases => (b.leaseCount now).2
  | .takeNext feed => { b with store := (b.store.takeNext feed).2 }
  | .closeFeed feed => { b with store := b.store.closeFeed feed }
  | .setResponsive member responsive => { b with store := b.store.setResponsive member responsive }
  | .setLearner member learner => { b with store := b.store.setLearner member learner }

/-- Moves one after the other, each at its time. -/
def moves (b : Backend) (l : List (Nat × Move)) : Backend := l.foldl (fun b m => b.move m.1 m.2) b

inductive Reached : Backend → Prop
  | ofMembers (names : List String) : Reached (.ofMembers names)
  | move {b : Backend} (h : Reached b) (now : Nat) (m : Move) : Reached (b.move now m)

variable {b : Backend}

theorem answer_cases (b : Backend) (now : Nat) (c : Call) :
    ((∃ k : FaultKind, (b.answer now c).1 = .error k.failure) ∧ (b.answer now c).2.store = b.store) ∨
      ((b.answer now c).1 = (b.store.answer now c).1 ∧
        (b.answer now c).2.store = (b.store.answer now c).2) := by
  unfold answer
  simp only
  split
  · exact .inl ⟨⟨_, rfl⟩, rfl⟩
  · exact .inr ⟨rfl, rfl⟩

theorem store_answer_of_ok {now : Nat} {c : Call} {a : c.Answer} (h : (b.answer now c).1 = .ok a) :
    (b.store.answer now c).1 = .ok a ∧ (b.answer now c).2.store = (b.store.answer now c).2 := by
  rcases b.answer_cases now c with ⟨⟨k, hk⟩, _⟩ | ⟨hr, hs⟩
  · rw [hk] at h; cases h
  · exact ⟨hr ▸ h, hs⟩

/-- The leases that end with a move, before anything else that it does. -/
def ends (b : Backend) (now : Nat) : Move → List Int
  | .call c => if (meetFault c.name b.faults).isSome then [] else b.store.ends now c
  | .countLeases => b.store.due now
  | _ => []

theorem leads_move_of_ends (h : b.store.Sound) (now : Nat) (m : Move) :
    (b.store.endAll (b.ends now m)).Leads (fun e => m.Writes e.record.key) (b.move now m).store := by
  cases m with
  | call c =>
    simp only [move, answer, ends]
    cases meetFault c.name b.faults with
    | none => exact Store.leads_answer_of_ends h now c
    | some k => exact .refl h
  | compact revision => exact Store.leads_compact h revision
  | fail rule => exact .refl h
  | clearFaults => exact .refl h
  | countLeases => exact .refl (Store.leads_expire h now).1
  | takeNext feed =>
    show b.store.Leads _ (b.store.takeNext feed).2
    unfold Store.takeNext
    split
    · exact .refl h
    · split
      · exact .refl h
      · exact .still h rfl rfl rfl rfl rfl rfl
  | closeFeed feed => exact .still h rfl rfl rfl rfl rfl rfl
  | setResponsive member responsive => exact .still h rfl rfl rfl rfl rfl rfl
  | setLearner member learner => exact .still h rfl rfl rfl rfl rfl rfl

theorem leads_move (h : b.store.Sound) (now : Nat) (m : Move) :
    b.store.Leads (fun e => m.Writes e.record.key ∨ b.store.Frees e) (b.move now m).store :=
  ((Store.leads_endAll _ h).mono fun _ => .inr).trans ((leads_move_of_ends h now m).mono fun _ => .inl)

theorem leads_moves (l : List (Nat × Move)) : ∀ {b : Backend}, b.store.Sound →
    b.store.Leads (fun _ => True) (b.moves l).store := by
  induction l with
  | nil => exact fun h => .refl h
  | cons m l ih =>
    intro b h
    have hm := (leads_move h m.1 m.2).mono (Q := fun _ => True) fun _ _ => trivial
    exact hm.trans (ih hm.1)

theorem moves_append (b : Backend) (l l' : List (Nat × Move)) : b.moves (l ++ l') = (b.moves l).moves l' :=
  List.foldl_append ..

theorem moves_inv {I : Backend → Prop} (h : ∀ {b} now m, I b → I (b.move now m)) (l : List (Nat × Move)) :
    ∀ {b}, I b → I (b.moves l) := by
  induction l with
  | nil => exact fun hb => hb
  | cons m l ih => exact fun hb => ih (h m.1 m.2 hb)

theorem Reached.sound (h : Reached b) : b.store.Sound := by
  induction h with
  | ofMembers names => exact .ofMembers names
  | move _ now m ih => exact (leads_move ih now m).1

end Backend

/-! ## Steps of programs -/

/-- What becomes of a call. -/
inductive Fate
  | answered
  /-- It takes effect, and a failure is heard. -/
  | unheard (f : Failure)
  /-- It takes no effect, and a failure is heard. -/
  | lost (f : Failure)

structure Turn where
  now : Nat
  today : Instant
  fate : Fate

/-- What is heard of a call in a turn, and the backend after. -/
def Backend.serve (b : Backend) (t : Turn) (c : Call) : Outcome c.Answer × Backend :=
  match t.fate with
  | .answered => b.answer t.now c
  | .unheard f => (.error f, (b.answer t.now c).2)
  | .lost f => (.error f, b)

theorem Backend.serve_cases (b : Backend) (t : Turn) (c : Call) :
    (b.serve t c).2 = b.move t.now (.call c) ∨ (b.serve t c).2 = b := by
  unfold serve
  cases t.fate with
  | answered => exact .inl rfl
  | unheard f => exact .inl rfl
  | lost f => exact .inr rfl

/-- The call takes effect in the turn, whatever is heard of it. -/
def Backend.takes (b : Backend) (t : Turn) (c : Call) : Bool :=
  match t.fate with
  | .lost _ => false
  | _ => (b.answer t.now c).1.isOk

theorem Backend.takes_of_ok {b : Backend} {t : Turn} {c : Call} {a : c.Answer} (h : (b.serve t c).1 = .ok a) :
    b.takes t c = true ∧ (b.store.answer t.now c).1 = .ok a := by
  unfold serve at h
  unfold takes
  cases ht : t.fate with
  | answered =>
    rw [ht] at h
    exact ⟨by simp only; rw [h]; rfl, (store_answer_of_ok h).1⟩
  | unheard f => rw [ht] at h; cases h
  | lost f => rw [ht] at h; cases h

/-- The store stays, or is what the call makes of it. -/
theorem Backend.store_serve (b : Backend) (t : Turn) (c : Call) :
    ((b.serve t c).2.store = b.store ∧ b.takes t c = false) ∨
      ((b.serve t c).2.store = (b.store.answer t.now c).2 ∧
        b.takes t c = (b.store.answer t.now c).1.isOk) := by
  unfold serve takes
  cases t.fate with
  | lost f => exact .inl ⟨rfl, rfl⟩
  | answered | unheard f =>
    rcases b.answer_cases t.now c with ⟨⟨k, hk⟩, hs⟩ | ⟨hr, hs⟩
    · exact .inl ⟨hs, by simp only; rw [hk]; rfl⟩
    · exact .inr ⟨hs, by simp only; rw [hr]⟩

namespace Prog

variable {φ : Call → Type} {α S : Type}

/-- A step of a program in a state that serves calls. A wait may end at any time, and a call under way
may be served at any. -/
def step (serve : (c : Call) → S → Outcome c.Answer × S) (t : Turn) :
    Prog Call.Answer φ α → S → Prog Call.Answer φ α × S
  | done a, s => (done a, s)
  | call _ i k, s => (k (serve i s).1, (serve i s).2)
  | await i _ k, s => (k (serve i s).1, (serve i s).2)
  | sleep _ p, s => (p, s)
  | sleepUntil _ p, s => (p, s)
  | clock k, s => (k t.now, s)
  | wallClock k, s => (k t.today, s)

def steps (serve : Turn → (c : Call) → S → Outcome c.Answer × S) :
    List Turn → Prog Call.Answer φ α → S → Prog Call.Answer φ α × S
  | [], p, s => (p, s)
  | t :: ts, p, s =>
    let (p, s) := p.step (serve t) t s
    steps serve ts p s

/-- The call that a program makes next, or waits for. -/
def asks? : Prog Call.Answer φ α → Option Call
  | call _ i _ | await i _ _ => some i
  | _ => none

end Prog

end Keyspace
