import Keyspace.Client
import Keyspace.Proofs.Run.Ensures
import Keyspace.Proofs.Store.Chronicle
import Keyspace.Proofs.Store.Transaction

/-!
# Visits

A visit is a call that reached a store, with the store that it found. A desk is a backend at which one program is
served while others move the backend as they like; it keeps the program's visits. Between one visit and the next there
is only what others do (`Store.Through`), and the visits that a call under a policy makes are all of that call
(`ensures_call`).
-/

namespace Keyspace

/-! ## What others do -/

/-- Sound, and all keys are text. -/
structure Store.Legible (s : Store) : Prop where
  sound : s.Sound
  texts : s.Texts

theorem Backend.legible_move {b : Backend} (h : b.store.Legible) (now : Nat) {m : Move}
    (hp : ∀ k, m.Puts k → IsText k) : (b.move now m).store.Legible := by
  refine ⟨(leads_move h.sound now m).1, ?_⟩
  cases m with
  | call c =>
    rcases b.answer_cases now c with ⟨-, hs⟩ | ⟨-, hs⟩
    · exact hs ▸ h.texts
    · exact hs ▸ (Store.logs_answer h.sound h.texts now hp).1
  | countLeases => exact (Store.logs_endAll _ h.sound h.texts).1
  | compact revision =>
    intro k r hr
    exact h.texts k r (b.store.current_compact revision k ▸ hr)
  | takeNext feed =>
    obtain ⟨feeds, hs, _⟩ := b.store.onlyFeeds_takeNext feed
    have hs : (b.move now (.takeNext feed)).store = { b.store with feeds } := hs
    rw [hs]
    exact h.texts
  | fail rule => exact h.texts
  | clearFaults => exact h.texts
  | closeFeed feed => exact h.texts
  | setResponsive member responsive => exact h.texts
  | setLearner member learner => exact h.texts

theorem Backend.legible_moves (l : List (Nat × Move)) : ∀ {b : Backend}, b.store.Legible →
    (∀ m ∈ l, ∀ k, m.2.Puts k → IsText k) → (b.moves l).store.Legible := by
  induction l with
  | nil => exact fun h _ => h
  | cons m l ih =>
    intro b h hp
    exact ih (legible_move h m.1 (hp m List.mem_cons_self)) fun m' hm => hp m' (List.mem_cons_of_mem _ hm)

namespace Store

variable {s t u : Store}

theorem legible_ofMembers (names : List String) : (Backend.ofMembers names).store.Legible :=
  ⟨.ofMembers names, nofun⟩

theorem legible_answer (h : s.Legible) (now : Nat) {c : Call} (hp : ∀ k, c.Puts k → IsText k) :
    (s.answer now c).2.Legible :=
  ⟨(leads_answer h.sound now c).1, (logs_answer h.sound h.texts now hp).1⟩

theorem legible_expire (h : s.Legible) (now : Nat) : (s.expire now).Legible :=
  ⟨(leads_expire h.sound now).1, (logs_endAll _ h.sound h.texts).1⟩

/-- The store is moved by others, who put nothing but text. -/
inductive MovedTo (s : Store) : Store → Prop
  | refl : MovedTo s s
  | move {b : Backend} (h : MovedTo s b.store) (now : Nat) {m : Move} (hp : ∀ k, m.Puts k → IsText k) :
    MovedTo s (b.move now m).store

theorem MovedTo.legible (h : s.MovedTo t) (hs : s.Legible) : t.Legible := by
  induction h with
  | refl => exact hs
  | move _ now hp ih => exact Backend.legible_move ih now hp

theorem MovedTo.leads (h : s.MovedTo t) (hs : s.Legible) : s.Leads (fun _ => True) t := by
  induction h with
  | refl => exact .refl hs.sound
  | move hm now hp ih => exact ih.trans ((Backend.leads_move (hm.legible hs).sound now _).mono fun _ _ => trivial)

/-- Nothing is committed without a new revision. -/
theorem Leads.latest_of_revision {P : Event → Prop} (h : s.Leads P t) (hr : t.revision = s.revision) :
    t.latest = s.latest := by
  obtain ⟨_, bs, ha, _⟩ := h
  have hlen : bs.length = 0 := by
    have := ha.revision
    omega
  rw [ha.latest, List.length_eq_zero_iff.1 hlen]
  rfl

end Store

/-! ## Visits -/

/-- A call that reached a store. -/
structure Visit where
  now : Nat
  call : Call
  found : Store

def Visit.left (v : Visit) : Store := (v.found.answer v.now v.call).2

/-- A store becomes another by visits, and by what others do before, between and after them. -/
def Store.Through (s : Store) : List Visit → Store → Prop
  | [], t => s.MovedTo t
  | v :: vs, t => s.MovedTo v.found ∧ v.left.Through vs t

namespace Store.Through

variable {s t : Store} {vs : List Visit}

theorem move {b : Backend} (h : s.Through vs b.store) (now : Nat) {m : Move} (hp : ∀ k, m.Puts k → IsText k) :
    s.Through vs (b.move now m).store := by
  induction vs generalizing s with
  | nil => exact .move h now hp
  | cons v vs ih => exact ⟨h.1, ih h.2⟩

theorem visit (h : s.Through vs t) (now : Nat) (c : Call) : s.Through (vs ++ [⟨now, c, t⟩]) (t.answer now c).2 := by
  induction vs generalizing s with
  | nil => exact ⟨h, .refl⟩
  | cons v vs ih => exact ⟨h.1, ih h.2⟩

theorem legible (h : s.Through vs t) (hs : s.Legible) (hp : ∀ v ∈ vs, ∀ k, v.call.Puts k → IsText k) :
    ∀ v ∈ vs, v.found.Legible := by
  induction vs generalizing s with
  | nil => exact List.forall_mem_nil _
  | cons v vs ih =>
    have hv := h.1.legible hs
    have hleft : v.left.Legible := Store.legible_answer hv v.now (hp v List.mem_cons_self)
    intro u hu
    rcases List.mem_cons.1 hu with rfl | hu
    · exact hv
    · exact ih h.2 hleft (fun w hw => hp w (List.mem_cons_of_mem _ hw)) u hu

/-- The later visits are such visits from where an earlier one left. -/
theorem drop {us : List Visit} {v : Visit} (h : s.Through (us ++ v :: vs) t) : v.left.Through vs t := by
  induction us generalizing s with
  | nil => exact h.2
  | cons u us ih => exact ih h.2

end Store.Through

/-! ## Desks -/

/-- The call gets to the store. -/
def Backend.reaches (b : Backend) (t : Turn) (c : Call) : Bool :=
  match t.fate with
  | .lost _ => false
  | _ => (meetFault c.name b.faults).isNone

theorem Backend.serve_of_reaches {b : Backend} {t : Turn} {c : Call} (h : b.reaches t c = true) :
    (b.serve t c).2.store = (b.store.answer t.now c).2 ∧
      ∀ a, (b.serve t c).1 = .ok a → (b.store.answer t.now c).1 = .ok a := by
  unfold reaches at h
  unfold serve
  cases hf : t.fate with
  | lost f => simp [hf] at h
  | answered =>
    obtain ⟨hr, hs⟩ := answer_of_unfaulted (b := b) (c := c) t.now (by simpa [hf] using h)
    exact ⟨hs, fun a ha => hr ▸ ha⟩
  | unheard f =>
    obtain ⟨_, hs⟩ := answer_of_unfaulted (b := b) (c := c) t.now (by simpa [hf] using h)
    exact ⟨hs, nofun⟩

theorem Backend.serve_of_not_reaches {b : Backend} {t : Turn} {c : Call} (h : b.reaches t c = false) :
    (b.serve t c).2.store = b.store ∧ ∀ a, (b.serve t c).1 ≠ .ok a := by
  unfold reaches at h
  unfold serve
  cases hf : t.fate with
  | lost f => exact ⟨rfl, nofun⟩
  | answered =>
    have hm : (meetFault c.name b.faults).isSome := by
      rw [hf] at h
      simpa [Option.isSome_iff_ne_none] using h
    obtain ⟨⟨k, hk⟩, hs⟩ := answer_of_faulted (b := b) (c := c) t.now hm
    exact ⟨hs, fun a ha => by simp only [hk] at ha; cases ha⟩
  | unheard f =>
    have hm : (meetFault c.name b.faults).isSome := by
      rw [hf] at h
      simpa [Option.isSome_iff_ne_none] using h
    exact ⟨(answer_of_faulted (b := b) (c := c) t.now hm).2, nofun⟩

structure Desk where
  backend : Backend
  /-- The program's visits, the oldest first. -/
  visits : List Visit

namespace Desk

def serve (t : Turn) (c : Call) (σ : Desk) : Outcome c.Answer × Desk :=
  ((σ.backend.serve t c).1, ⟨(σ.backend.serve t c).2,
    if σ.backend.reaches t c then σ.visits ++ [⟨t.now, c, σ.backend.store⟩] else σ.visits⟩)

variable {φ : Call → Type} {α : Type}

/-- What a program at a desk comes to, beside others who put nothing but text. -/
inductive Reached (b : Backend) (p₀ : Prog Call.Answer φ α) : Prog Call.Answer φ α → Desk → Prop
  | start : Reached b p₀ p₀ ⟨b, []⟩
  | turn {p : Prog Call.Answer φ α} {σ : Desk} (h : Reached b p₀ p σ) (t : Turn) :
    Reached b p₀ (p.step (serve t) t σ).1 (p.step (serve t) t σ).2
  | other {p : Prog Call.Answer φ α} {σ : Desk} (h : Reached b p₀ p σ) (now : Nat) {m : Move}
    (hp : ∀ k, m.Puts k → IsText k) : Reached b p₀ p ⟨σ.backend.move now m, σ.visits⟩

variable {b : Backend} {p₀ p : Prog Call.Answer φ α} {σ τ : Desk}

theorem Reached.turns (ts : List Turn) : ∀ {p : Prog Call.Answer φ α} {σ : Desk}, Reached b p₀ p σ →
    Reached b p₀ (p.steps serve ts σ).1 (p.steps serve ts σ).2 := by
  induction ts with
  | nil => exact fun h => h
  | cons t ts ih => exact fun h => ih (h.turn t)

theorem Reached.through (h : Reached b p₀ p σ) : b.store.Through σ.visits σ.backend.store := by
  induction h with
  | start => exact .refl
  | @turn p σ h t ih =>
    refine Prog.step_inv (I := fun σ : Desk => b.store.Through σ.visits σ.backend.store) ih (fun c => ?_) t p
    simp only [serve]
    cases hr : σ.backend.reaches t c with
    | true =>
      rw [(Backend.serve_of_reaches hr).1]
      exact ih.visit t.now c
    | false =>
      rw [(Backend.serve_of_not_reaches hr).1]
      exact ih
  | other _ now hp ih => exact ih.move now hp

/-! ## The setting -/

/-- What a call comes to: it did not get to the store, or it is the last of the visits. -/
def Serves (c : Call) (σ : Desk) (r : Outcome c.Answer) (τ : Desk) : Prop :=
  (τ.visits = σ.visits ∧ ∀ a, r ≠ .ok a) ∨
    ∃ now s, τ.visits = σ.visits ++ [⟨now, c, s⟩] ∧ ∀ a, r = .ok a → (s.answer now c).1 = .ok a

theorem serves_serve (σ : Desk) (t : Turn) (c : Call) : Serves c σ (σ.serve t c).1 (σ.serve t c).2 := by
  unfold Serves serve
  cases hr : σ.backend.reaches t c with
  | true => exact .inr ⟨t.now, σ.backend.store, rfl, (Backend.serve_of_reaches hr).2⟩
  | false => exact .inl ⟨rfl, (Backend.serve_of_not_reaches hr).2⟩

/-- Any calls, beside any others. -/
def visiting : Setting Desk where
  may _ _ := True
  serves := Serves
  others σ τ := τ.visits = σ.visits
  refl _ := rfl
  trans h h' := h'.trans h

theorem Reached.ensures {Q : α → Desk → Prop} (h : Reached b p₀ p σ) (hp : p₀.Ensures visiting Q ⟨b, []⟩) :
    p.Ensures visiting Q σ := by
  induction h with
  | start => exact hp
  | turn _ t ih => exact ih.step t fun c _ => serves_serve _ t c
  | other _ now hp ih => exact ih.others rfl

/-- The visits are those before and then some of the call `c`, of which the last is answered if the call is. -/
def Asks (c : Call) (before : List Visit) (r : Outcome c.Answer) (σ : Desk) : Prop :=
  ∃ vs, σ.visits = before ++ vs ∧ (∀ v ∈ vs, v.call = c) ∧
    ∀ a, r = .ok a → ∃ us now s, vs = us ++ [⟨now, c, s⟩] ∧ (s.answer now c).1 = .ok a

end Desk

theorem Client.ensures_call {φ : Call → Type} (cl : Client) (c : Call) (σ : Desk) :
    (cl.call c : Action Call.Answer φ c.Answer).run.Ensures Desk.visiting (Desk.Asks c σ.visits) σ := by
  refine Prog.Ensures.runWith (P := fun τ => ∃ vs, τ.visits = σ.visits ++ vs ∧ ∀ v ∈ vs, v.call = c)
    (Q := Desk.Asks c σ.visits) ?_ ?_ (fun _ => trivial) ?_ cl.policy.retries ⟨[], by simp, List.forall_mem_nil _⟩
  · rintro τ τ' ⟨vs, hvs, hc⟩ ho
    exact ⟨vs, ho.trans hvs, hc⟩
  · rintro r τ τ' ⟨vs, hvs, hc⟩ ho
    exact ⟨vs, ho.trans hvs, hc⟩
  · rintro τ r τ' ⟨vs, hvs, hc⟩ (⟨hsame, hr⟩ | ⟨now, s, hnew, hr⟩)
    · exact ⟨⟨vs, hsame.trans hvs, hc, fun a ha => absurd ha (hr a)⟩, fun _ _ => ⟨vs, hsame.trans hvs, hc⟩⟩
    · have hlast : τ'.visits = σ.visits ++ (vs ++ [⟨now, c, s⟩]) := by rw [hnew, hvs, List.append_assoc]
      have hcall : ∀ v ∈ vs ++ [⟨now, c, s⟩], v.call = c := by
        intro v hv
        rcases List.mem_append.1 hv with hv | hv
        · exact hc v hv
        · rw [List.mem_singleton.1 hv]
      exact ⟨⟨_, hlast, hcall, fun a ha => ⟨vs, now, s, rfl, hr a ha⟩⟩, fun _ _ => ⟨_, hlast, hcall⟩⟩

end Keyspace
