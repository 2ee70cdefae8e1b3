import Keyspace.Proofs.Store.Chronicle
import Keyspace.Sim.Job

/-!
# Steps of a watch

What taking from a feed tells of it (`Store.takeNext_spec`), and what a watch can do in one step
(`WatchJob.steps_of_step?`), whatever becomes of its calls.
-/

namespace Keyspace

open Sim (World WorldEnv WatchJob)

/-! ## Feeds as they are taken from -/

namespace Store

variable {s : Store} {id : FeedId}

def pending (s : Store) (id : FeedId) : List (Outcome Batch) := ((s.feed? id).map (·.queue)).getD []

/-- Nothing comes any more, or there is no such feed. -/
def isOver (s : Store) (id : FeedId) : Bool := ((s.feed? id).map (!·.live)).getD true

theorem takeNext_spec (s : Store) (id : FeedId) :
    match (s.takeNext id).1 with
    | .item x => s.pending id = x :: (s.takeNext id).2.pending id ∧ (s.takeNext id).2.isOver id = s.isOver id
    | .empty => s.pending id = [] ∧ s.isOver id = false
    | .ended => s.pending id = [] ∧ s.isOver id = true := by
  cases hf : s.feed? id with
  | none =>
    have ht : s.takeNext id = (.ended, s) := by
      have hn : s.feeds.find? (·.id = id) = none := hf
      rw [takeNext, hn]
    rw [ht]
    simp [pending, isOver, hf]
  | some f =>
    have ht := takeNext_of_feed? hf
    cases hq : f.queue with
    | nil =>
      rw [hq] at ht
      rw [ht]
      cases hl : f.live <;> simp [pending, isOver, hf, hq, hl]
    | cons x rest =>
      rw [hq] at ht
      rw [ht.1]
      simp [pending, isOver, hf, ht.2, hq]

end Store

/-! ## Channels -/

theorem Channel.length_send_le {α : Type} {c : Channel α} (h : c.isFull = false) (x : α) :
    (c.send x).items.length ≤ c.capacity := by
  have hlt : ¬ c.capacity ≤ c.items.length := by simpa [isFull] using h
  rw [send, List.length_append, List.length_singleton]
  omega

theorem Channel.take_eq_ended {α : Type} {c : Channel α} (h : c.take.1 = .ended) : c.items = [] ∧ c.closed = true := by
  cases hi : c.items with
  | nil =>
    refine ⟨rfl, ?_⟩
    cases hc : c.closed with
    | true => rfl
    | false => simp [take, hi, hc] at h
  | cons x items => simp [take, hi] at h

/-! ## Steps of a watch -/

theorem Forwarder.isStopped_iff {f : Forwarder} : f.isStopped = true ↔ f.phase = .stopped := by
  unfold isStopped
  cases f.phase <;> simp

/-- A feed is given back. -/
def Sim.World.release (w : World) : Option FeedId → World
  | none => w
  | some id => w.closeFeed id

theorem Sim.World.onlyFeeds_release (w : World) (feed : Option FeedId) :
    w.backend.store.OnlyFeeds (w.release feed).backend.store := by
  cases feed with
  | none => exact .refl _
  | some id => exact w.backend.store.onlyFeeds_closeFeed id

namespace Sim.WatchJob

variable {j : WatchJob}

def stopped (j : WatchJob) : WatchJob := { j with forwarder := j.forwarder.stop, feed := none }

theorem settleFeed_of_stop (j : WatchJob) (f : Forwarder) (w : World) :
    settleFeed { j with forwarder := f.stop } w = (stopped { j with forwarder := f }, w.release j.feed) := by
  obtain ⟨forwarder, opening, feed⟩ := j
  cases feed <;> rfl

theorem settleFeed_of_running (hj : j.forwarder.isStopped = false) (w : World) : j.settleFeed w = (j, w) := by
  unfold settleFeed
  rw [hj]

/-- What a step of a watch can be that is not cancelled. -/
inductive Steps (h : WorldEnv) (j : WatchJob) (w : World) : WatchJob → World → Prop
  | waits {w' : World} {p : Sim.WorldProg (Outcome FeedId)} (hp : j.forwarder.phase = .opening)
      (ha : j.opening.advance h w = (p, w')) (hr : p.result? = none) : Steps h j w { j with opening := p } w'
  | opens {w' : World} {p : Sim.WorldProg (Outcome FeedId)} {id : FeedId} (hp : j.forwarder.phase = .opening)
      (ha : j.opening.advance h w = (p, w')) (hr : p.result? = some (.ok id)) :
      Steps h j w { j with feed := some id, forwarder := j.forwarder.opened (.ok ()) } w'
  | refused {w' : World} {p : Sim.WorldProg (Outcome FeedId)} {e : Failure} (hp : j.forwarder.phase = .opening)
      (ha : j.opening.advance h w = (p, w')) (hr : p.result? = some (.error e)) :
      Steps h j w { j with forwarder := j.forwarder.opened (.error e) } w'
  | hears {w' : World} {id : FeedId} {x : Outcome Batch} (hp : j.forwarder.phase = .listening)
      (hf : j.feed = some id) (hx : w.takeNext id = (.item x, w')) :
      Steps h j w { j with forwarder := j.forwarder.heard (.item x) } w'
  | ends {w' : World} {id : FeedId} (hp : j.forwarder.phase = .listening) (hf : j.feed = some id)
      (hx : w.takeNext id = (.ended, w')) : Steps h j w j.stopped (w'.release j.feed)
  | leaves {c : Outcome Changes} {last : Bool} (hp : j.forwarder.phase = .delivering c last)
      (ha : j.forwarder.out.abandoned = true) : Steps h j w j.stopped (w.release j.feed)
  | sends {c : Outcome Changes} (hp : j.forwarder.phase = .delivering c false)
      (hr : j.forwarder.out.isFull = false) :
      Steps h j w { j with forwarder := { j.forwarder with phase := .listening, out := j.forwarder.out.send c } } w
  | sendsLast {c : Outcome Changes} (hp : j.forwarder.phase = .delivering c true)
      (hr : j.forwarder.out.isFull = false) : Steps h j w (stopped { j with
        forwarder := { j.forwarder with phase := .listening, out := j.forwarder.out.send c } }) (w.release j.feed)

variable {h : WorldEnv} {j' : WatchJob} {w w' : World}

theorem steps_of_opening (hp : j.forwarder.phase = .opening) (hs : j.stepOpening h w = some (j', w')) :
    Steps h j w j' w' := by
  unfold stepOpening at hs
  split at hs
  · obtain ⟨out, hout⟩ : ∃ out, out = j.opening.advance h w := ⟨_, rfl⟩
    obtain ⟨p, v⟩ := out
    simp only [← hout] at hs
    cases hr : p.result? with
    | none =>
      simp only [hr] at hs
      cases hs
      exact .waits hp hout.symm hr
    | some r =>
      cases r with
      | ok id =>
        simp only [hr] at hs
        cases hs
        exact .opens hp hout.symm hr
      | error e =>
        simp only [hr] at hs
        cases hs
        exact .refused hp hout.symm hr
  · cases hs

theorem steps_of_listening (hp : j.forwarder.phase = .listening) (hs : j.stepListening w = some (j', w')) :
    Steps h j w j' w' := by
  unfold stepListening at hs
  cases hf : j.feed with
  | none =>
    rw [hf] at hs
    cases hs
  | some id =>
    rw [hf] at hs
    obtain ⟨out, hout⟩ : ∃ out, out = w.takeNext id := ⟨_, rfl⟩
    obtain ⟨x, v⟩ := out
    simp only [← hout] at hs
    cases x with
    | empty => cases hs
    | ended =>
      have he : settleFeed { j with forwarder := j.forwarder.stop } v = (j', w') := hf ▸ Option.some.inj hs
      cases (settleFeed_of_stop j j.forwarder v).symm.trans he
      exact .ends hp hf hout.symm
    | item x =>
      have hrun : (j.forwarder.heard (.item x)).isStopped = false := by cases x <;> rfl
      have he := settleFeed_of_running (j := { j with forwarder := j.forwarder.heard (.item x) }) hrun v
      cases he.symm.trans (hf ▸ Option.some.inj hs)
      exact .hears hp hf hout.symm

theorem steps_of_delivering {c : Outcome Changes} {last : Bool} (hp : j.forwarder.phase = .delivering c last)
    {f : Forwarder} (hd : j.forwarder.deliver? c last = some f)
    (hs : settleFeed { j with forwarder := f } w = (j', w')) : Steps h j w j' w' := by
  unfold Forwarder.deliver? at hd
  split at hd
  · rename_i ha
    cases hd
    cases (settleFeed_of_stop j j.forwarder w).symm.trans hs
    exact .leaves hp ha
  split at hd
  · cases hd
  · rename_i hr
    have hr : j.forwarder.out.isFull = false := by simpa using hr
    cases last with
    | true =>
      cases hd
      cases (settleFeed_of_stop j _ w).symm.trans hs
      exact .sendsLast hp hr
    | false =>
      cases hd
      cases (settleFeed_of_running rfl w).symm.trans hs
      exact .sends hp hr

theorem running_of_step? (hs : j.step? h w = some (j', w')) : j.forwarder.isStopped = false := by
  unfold step? at hs
  split at hs
  · cases hs
  · rename_i hstop
    exact Bool.eq_false_iff.2 hstop

/-- A cancelled watch stops, and any other goes on. -/
theorem steps_of_step? (hs : j.step? h w = some (j', w')) :
    (j.forwarder.cancelled = true ∧ j' = j.stopped ∧ w' = w.release j.feed) ∨
      j.forwarder.cancelled = false ∧ Steps h j w j' w' := by
  unfold step? at hs
  split at hs
  · cases hs
  split at hs
  · rename_i hc
    cases (settleFeed_of_stop j j.forwarder w).symm.trans (Option.some.inj hs)
    exact .inl ⟨hc, rfl, rfl⟩
  · rename_i hc
    refine .inr ⟨by simpa using hc, ?_⟩
    cases hp : j.forwarder.phase with
    | stopped =>
      rw [hp] at hs
      cases hs
    | opening =>
      rw [hp] at hs
      exact steps_of_opening hp hs
    | listening =>
      rw [hp] at hs
      exact steps_of_listening hp hs
    | delivering c last =>
      rw [hp] at hs
      obtain ⟨f, hf, he⟩ := Option.map_eq_some_iff.1 hs
      exact steps_of_delivering hp hf he

/-- What keeps a watch from a step. -/
theorem blocked_of_step? (hs : j.step? h w = none) : j.forwarder.isStopped = true ∨
    (j.forwarder.phase = .opening ∧ j.opening.isReady h w = false) ∨ j.forwarder.out.isFull = true ∨
    j.forwarder.phase = .listening ∧ ∀ id, j.feed = some id → (w.takeNext id).1 = .empty := by
  unfold step? at hs
  split at hs
  · rename_i hstop
    exact .inl hstop
  split at hs
  · cases hs
  cases hp : j.forwarder.phase with
  | stopped => exact .inl (Forwarder.isStopped_iff.2 hp)
  | opening =>
    rw [hp] at hs
    simp only [stepOpening] at hs
    split at hs
    · split at hs <;> cases hs
    · rename_i hr
      exact .inr (.inl ⟨rfl, Bool.eq_false_iff.2 hr⟩)
  | delivering c last =>
    rw [hp] at hs
    have hd := Option.map_eq_none_iff.1 hs
    unfold Forwarder.deliver? at hd
    split at hd
    · cases hd
    split at hd
    · rename_i hfull
      exact .inr (.inr (.inl hfull))
    · cases hd
  | listening =>
    rw [hp] at hs
    refine .inr (.inr (.inr ⟨rfl, fun id hf => ?_⟩))
    simp only [stepListening, hf] at hs
    split at hs
    · rename_i hx
      exact congrArg (·.1) hx
    · cases hs

end Sim.WatchJob

end Keyspace
