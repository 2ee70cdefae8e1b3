import Keyspace.Proofs.Watch.Steps

/-!
# The flow of a watch

Opening a watch is a call under a policy: while it fails the store stays as it is (`Tries.answers`). Once
it is open the batches that it is to hear are, in order, those taken from its channel, those in the
channel, the one that waits for room there and those that wait in its feed (`Flows`): no step loses one,
tells one twice or changes their order (`Flows.step`), and until all are taken there is one to take or a
step to do (`Flows.progress`).
-/

namespace Keyspace.Sim

/-! ## Calls at once -/

namespace World

variable {α : Type} {w : World}

theorem advance_call (t : Option Nat) (i : Call) (k : Outcome i.Answer → WorldProg α) (w : World) :
    (Prog.call t i k).advance (env true) w = (k (w.answer i).1).advance (env true) (w.answer i).2 := by
  have hp : poll i (w.beginPlain t i).1 w = (.inr (w.answer i).1, (w.answer i).2) := by
    simp [poll, beginPlain, flight, Act.plain, waitEnd, act, commitEach]
  have hs : (env true).start t i w = ((w.beginPlain t i).1, w) := rfl
  rw [Prog.advance, hs]
  simp only
  rw [show (env true).poll i (w.beginPlain t i).1 w = (.inr (w.answer i).1, (w.answer i).2) from hp]

/-- Before an attempt, or waiting for the next one. -/
def Tries (policy : Retry.Policy) (i : Call) (p : WorldProg (Outcome i.Answer)) : Prop :=
  ∃ n, p = policy.runWith i n ∨ ∃ t, p = .sleepUntil t (policy.runWith i n)

theorem Tries.result? {policy : Retry.Policy} {i : Call} {p : WorldProg (Outcome i.Answer)} (h : Tries policy i p) :
    p.result? = none := by
  obtain ⟨n, rfl | ⟨t, rfl⟩⟩ := h
  · cases n <;> rfl
  · rfl

/-- The program that is left, and the world, of which `I` holds unless `i` was answered in such a world; `F`
holds of the failures of `i`. -/
def Outcomes (policy : Retry.Policy) (i : Call) (I : World → Prop) (F : Failure → Prop)
    (out : WorldProg (Outcome i.Answer) × World) : Prop :=
  (I out.2 ∧ (Tries policy i out.1 ∨ ∃ e, F e ∧ out.1 = .done (.error e))) ∨
    ∃ a w, I w ∧ w.answer i = (.ok a, out.2) ∧ out.1 = .done (.ok a)

theorem outcomes_runWith {policy : Retry.Policy} {i : Call} {I : World → Prop} {F : Failure → Prop}
    (hI : ∀ w e, I w → (w.answer i).1 = .error e → I (w.answer i).2 ∧ F e) :
    ∀ (n : Nat) {w : World}, I w → Outcomes policy i I F ((policy.runWith i n).advance (env true) w) := by
  intro n
  induction n with
  | zero =>
    intro w hw
    rw [Retry.Policy.runWith, Retry.Policy.attempt, advance_call, Prog.advance]
    cases hr : (w.answer i).1 with
    | error e => exact .inl ⟨(hI w e hw hr).1, .inr ⟨e, (hI w e hw hr).2, rfl⟩⟩
    | ok a => exact .inr ⟨a, w, hw, Prod.ext hr rfl, rfl⟩
  | succ n ih =>
    intro w hw
    rw [Retry.Policy.runWith, advance_call]
    cases hr : (w.answer i).1 with
    | ok a => exact .inr ⟨a, w, hw, Prod.ext hr rfl, rfl⟩
    | error e =>
      obtain ⟨hk, he⟩ := hI w e hw hr
      simp only
      split
      · rw [Prog.advance]
        split
        · exact ih hk
        · exact .inl ⟨hk, .inl ⟨n, .inr ⟨_, rfl⟩⟩⟩
      · exact .inl ⟨hk, .inr ⟨e, he, rfl⟩⟩

theorem Tries.outcomes {policy : Retry.Policy} {i : Call} {p : WorldProg (Outcome i.Answer)} {I : World → Prop}
    {F : Failure → Prop} (h : Tries policy i p)
    (hI : ∀ w e, I w → (w.answer i).1 = .error e → I (w.answer i).2 ∧ F e) (hw : I w) :
    Outcomes policy i I F (p.advance (env true) w) := by
  obtain ⟨n, rfl | ⟨t, rfl⟩⟩ := h
  · exact outcomes_runWith hI n hw
  · rw [Prog.advance]
    split
    · exact outcomes_runWith hI n hw
    · exact .inl ⟨hw, .inl ⟨n, .inr ⟨t, rfl⟩⟩⟩

/-- Made for the n-th time at once, a call meets a fault. -/
def Fails (b : Backend) (now : Nat) (i : Call) (e : Failure) : Prop :=
  (∃ k : FaultKind, e = k.failure) ∧ ∃ n, ((b.moves (.replicate n (now, .call i))).answer now i).1 = .error e

/-- A call that only a fault keeps from an answer. -/
def Answers (i : Call) : Prop := ∀ (s : Store) (now : Nat), ∃ a, (s.answer now i).1 = .ok a

theorem answers_watch (span : Span) (start : Option Int) : Answers (.watch span start) := fun _ _ => ⟨_, rfl⟩

theorem answers_range (span : Span) : Answers (.range span none) := fun _ _ => ⟨_, rfl⟩

theorem Answers.error {i : Call} (hi : Answers i) {b : Backend} {now : Nat} {e : Failure}
    (h : (b.answer now i).1 = .error e) : (b.answer now i).2.store = b.store ∧ ∃ k : FaultKind, e = k.failure := by
  rcases b.answer_cases now i with ⟨⟨k, hk⟩, hs⟩ | ⟨hr, _⟩
  · exact ⟨hs, k, Except.error.inj (h.symm.trans hk)⟩
  · obtain ⟨a, ha⟩ := hi b.store now
    rw [hr, ha] at h
    cases h

theorem Tries.answers {policy : Retry.Policy} {i : Call} {p : WorldProg (Outcome i.Answer)} (h : Tries policy i p)
    (hi : Answers i) (w : World) :
    ((p.advance (env true) w).2.backend.store = w.backend.store ∧
      (Tries policy i (p.advance (env true) w).1 ∨
        ∃ e, Fails w.backend w.now i e ∧ (p.advance (env true) w).1 = .done (.error e))) ∨
    ∃ (b : Backend) (a : i.Answer), b.store = w.backend.store ∧
      b.answer w.now i = (.ok a, (p.advance (env true) w).2.backend) ∧
      (p.advance (env true) w).1 = .done (.ok a) := by
  let I (v : World) : Prop := v.now = w.now ∧ v.backend.store = w.backend.store ∧
    ∃ n, v.backend = w.backend.moves (.replicate n (w.now, .call i))
  have hI : ∀ v e, I v → (v.answer i).1 = .error e → I (v.answer i).2 ∧ Fails w.backend w.now i e := by
    intro v e ⟨hnow, hstore, n, hn⟩ he
    obtain ⟨hs, hk⟩ := hi.error he
    refine ⟨⟨hnow, hs.trans hstore, n + 1, ?_⟩, hk, n, ?_⟩
    · rw [List.replicate_succ', Backend.moves_append, ← hn, ← hnow]
      rfl
    · rw [← hn, ← hnow]
      exact he
  rcases h.outcomes hI ⟨rfl, rfl, 0, rfl⟩ with ⟨hw, hp | ⟨e, he, hp⟩⟩ | ⟨a, v, hv, ha, hp⟩
  · exact .inl ⟨hw.2.1, .inl hp⟩
  · exact .inl ⟨hw.2.1, .inr ⟨e, he, hp⟩⟩
  · refine .inr ⟨v.backend, a, hv.2.1, ?_, hp⟩
    have hr : (v.backend.answer v.now i).1 = .ok a := congrArg (·.1) ha
    have hb : (v.backend.answer v.now i).2 = (p.advance (env true) w).2.backend := congrArg (·.2.backend) ha
    rw [← hb, ← hv.1]
    exact Prod.ext hr rfl

theorem Tries.watch {policy : Retry.Policy} {span : Span} {start : Option Int} {p : WorldProg (Outcome FeedId)}
    (h : Tries policy (.watch span start) p) (w : World) :
    ((p.advance (env true) w).2.backend.store = w.backend.store ∧
      (Tries policy (.watch span start) (p.advance (env true) w).1 ∨
        ∃ e, Fails w.backend w.now (.watch span start) e ∧ (p.advance (env true) w).1 = .done (.error e))) ∨
    ∃ (b : Backend) (id : FeedId), b.store = w.backend.store ∧
      b.answer w.now (.watch span start) = (.ok id, (p.advance (env true) w).2.backend) ∧
      (p.advance (env true) w).1 = .done (.ok id) :=
  h.answers (answers_watch span start) w

end World

/-! ## Flows -/

namespace WatchJob

/-- What a watch under a head tells of what its feed has. -/
def tell (head : String) : Outcome Batch → Outcome Changes := Except.map (Changes.ofBatch (some head))

def queued (j : WatchJob) (s : Store) : List (Outcome Batch) := ((j.feed.bind s.feed?).map (·.queue)).getD []

/-- What has not reached the channel yet. -/
def underWay (head : String) (j : WatchJob) (s : Store) : List (Outcome Changes) :=
  (match j.forwarder.phase with
    | .delivering x _ => [x]
    | _ => []) ++ (j.queued s).map (tell head)

/-- A watch that is open and is to tell `due`, to which more comes as long as it is `live`. -/
structure Flows (head : String) (live : Bool) (due : List (Outcome Batch)) (received : List (Outcome Changes))
    (j : WatchJob) (s : Store) : Prop where
  trim : j.forwarder.trim = some head
  room : 0 < j.forwarder.out.capacity
  opened : j.forwarder.phase ≠ .opening
  fed : ∀ id, j.feed = some id → ∃ f, s.feed? id = some f ∧ f.span = .under (Utf8.encode head) ∧ f.live = live
  last : ∀ x, j.forwarder.phase = .delivering x true → ∃ e, x = .error e
  sent : received ++ j.forwarder.out.items <+: due.map (tell head)
  whole : j.forwarder.isStopped = false →
    received ++ j.forwarder.out.items ++ j.underWay head s = due.map (tell head)
  due_ok : live = true → ∀ x ∈ due, ∃ b, x = .ok b
  due_error : live = false → ∃ e, due = [.error e]
  hears : live = true → j.forwarder.isStopped = false → j.feed ≠ none
  /-- Nobody stops it but those at its ends, unless all is told. -/
  ends : j.forwarder.isStopped = true → j.forwarder.cancelled = true ∨ j.forwarder.out.abandoned = true ∨
    live = false ∧ received ++ j.forwarder.out.items = due.map (tell head)

namespace Flows

variable {head : String} {live : Bool} {due : List (Outcome Batch)} {received : List (Outcome Changes)}
  {j j' : WatchJob} {s s' : Store}

theorem received_prefix_due (h : Flows head live due received j s) : received <+: due.map (tell head) :=
  (List.prefix_append received _).trans h.sent

theorem hear (h : Flows head live due received j s) {bs : List Batch}
    (hs : ∀ id f, j.feed = some id → s.feed? id = some f → s'.feed? id = some (f.offerAll bs)) :
    Flows head live
      (due ++ if live then (bs.filterMap (·.within? (.under (Utf8.encode head)))).map .ok else []) received j s' := by
  have hfed : ∀ id, j.feed = some id → ∃ f, s.feed? id = some f ∧ s'.feed? id = some { f with
      queue := f.queue ++ if live then (bs.filterMap (·.within? (.under (Utf8.encode head)))).map .ok else [] } ∧
      f.span = .under (Utf8.encode head) ∧ f.live = live := by
    intro id hid
    obtain ⟨f, hf, hspan, hlive⟩ := h.fed id hid
    have hf' := hs id f hid hf
    refine ⟨f, hf, ?_, hspan, hlive⟩
    cases live with
    | true => rw [hf', Feed.offerAll_of_live bs hlive, hspan, if_pos rfl]
    | false => rw [hf', Feed.offerAll_of_not_live bs hlive]; simp
  refine ⟨h.trim, h.room, h.opened, fun id hid => ?_, h.last, ?_, fun hstop => ?_, fun hl x hx => ?_, fun hl => ?_,
    h.hears, fun hstop => ?_⟩
  · obtain ⟨f, _, hf', hspan, hlive⟩ := hfed id hid
    exact ⟨_, hf', hspan, hlive⟩
  · rw [List.map_append]
    exact h.sent.trans (List.prefix_append _ _)
  · have hway : j.underWay head s' = j.underWay head s ++
        (if live then (bs.filterMap (·.within? (.under (Utf8.encode head)))).map .ok else []).map (tell head) := by
      unfold underWay queued
      cases hid : j.feed with
      | none =>
        cases live with
        | true => exact absurd hid (h.hears rfl hstop)
        | false => simp
      | some id =>
        obtain ⟨f, hf, hf', _⟩ := hfed id hid
        simp [hf, hf']
    rw [List.map_append, hway, ← List.append_assoc, h.whole hstop]
  · rcases List.mem_append.1 hx with hx | hx
    · exact h.due_ok hl x hx
    · rw [if_pos hl] at hx
      obtain ⟨b, _, rfl⟩ := List.mem_map.1 hx
      exact ⟨b, rfl⟩
  · obtain ⟨e, he⟩ := h.due_error hl
    exact ⟨e, by simp [he, hl]⟩
  · rcases h.ends hstop with hc | ha | ⟨hl, hall⟩
    · exact .inl hc
    · exact .inr (.inl ha)
    · exact .inr (.inr ⟨hl, by simp [hall, hl]⟩)

/-! ### What is done to a watch -/

theorem cancel (h : Flows head live due received j s) : Flows head live due received j.cancel s :=
  { h with ends := fun _ => .inl rfl }

theorem abandon (h : Flows head live due received j s) : Flows head live due received j.abandon s :=
  { h with ends := fun _ => .inr (.inl rfl) }

theorem take (h : Flows head live due received j s) {x : Outcome Changes} (hx : j.take = (.item x, j')) :
    Flows head live due (received ++ [x]) j' s := by
  obtain ⟨⟨trim, phase, cancelled, capacity, items, closed, abandoned⟩, opening, feed⟩ := j
  cases items with
  | nil => cases closed <;> cases hx
  | cons y items =>
    cases hx
    have hsent := h.sent
    have hwhole := h.whole
    have hends := h.ends
    refine { h with sent := ?_, whole := fun hs => ?_, ends := fun hs => ?_ }
    · simpa using hsent
    · simpa [underWay, queued] using hwhole hs
    · simpa using hends hs

/-! ### What a watch does -/

theorem stopped (h : Flows head live due received j s)
    (hend : j.forwarder.cancelled = true ∨ j.forwarder.out.abandoned = true ∨
      live = false ∧ received ++ j.forwarder.out.items = due.map (tell head)) (s' : Store) :
    Flows head live due received j.stopped s' where
  trim := h.trim
  room := h.room
  opened := nofun
  fed := nofun
  last := nofun
  sent := h.sent
  whole := nofun
  due_ok := h.due_ok
  due_error := h.due_error
  hears _ := nofun
  ends _ := hend

theorem heard (h : Flows head live due received j s) {id : FeedId} (hid : j.feed = some id)
    (hp : j.forwarder.phase = .listening) {x : Outcome Batch} (hx : (s.takeNext id).1 = .item x) :
    Flows head live due received { j with forwarder := j.forwarder.heard (.item x) } (s.takeNext id).2 := by
  obtain ⟨f, hf, hspan, hlive⟩ := h.fed id hid
  have htake := Store.takeNext_of_feed? hf
  cases hq : f.queue with
  | nil =>
    rw [hq] at htake
    rw [htake] at hx
    cases hl : f.live <;> simp [hl] at hx
  | cons y queue =>
    rw [hq] at htake
    obtain ⟨hy, hf'⟩ := htake
    cases hy.symm.trans hx
    have hstop : j.forwarder.isStopped = false := by simp [Forwarder.isStopped, hp]
    have hway : j.underWay head s = tell head x :: queue.map (tell head) := by
      simp [underWay, queued, hp, hid, hf, hq]
    have hwhole := h.whole hstop
    have fed : ∀ i, j.feed = some i → ∃ f, (s.takeNext id).2.feed? i = some f ∧
        f.span = .under (Utf8.encode head) ∧ f.live = live := by
      intro i hi
      cases hid.symm.trans hi
      exact ⟨_, hf', hspan, hlive⟩
    have hears : live = true → false = false → j.feed ≠ none := fun hl _ => h.hears hl hstop
    cases x with
    | error e =>
      refine { h with
        opened := nofun, fed := fed, last := fun x hx => ⟨e, ?_⟩, whole := fun _ => ?_, hears := hears, ends := nofun }
      · cases hx
        rfl
      · rw [← hwhole, hway]
        simp [underWay, queued, Forwarder.heard, hid, hf', tell, Except.map]
    | ok b =>
      refine { h with
        opened := nofun, fed := fed, last := fun x hx => ?_, whole := fun _ => ?_, hears := hears, ends := nofun }
      · cases hx
      · rw [← hwhole, hway]
        simp [underWay, queued, Forwarder.heard, hid, hf', tell, Except.map, h.trim]

theorem sends (h : Flows head live due received j s) {x : Outcome Changes} {last : Bool}
    (hp : j.forwarder.phase = .delivering x last) : Flows head live due received
      { j with forwarder := { j.forwarder with phase := .listening, out := j.forwarder.out.send x } } s := by
  have hstop : j.forwarder.isStopped = false := by simp [Forwarder.isStopped, hp]
  have hwhole := h.whole hstop
  have hway : j.underWay head s = x :: (j.queued s).map (tell head) := by
    simp [underWay, hp]
  refine { h with
    opened := nofun, last := nofun, sent := ?_, whole := fun _ => ?_, hears := fun hl _ => ?_, ends := nofun }
  · rw [← hwhole, hway]
    simp [Channel.send]
  · rw [← hwhole, hway]
    simp [underWay, queued, Channel.send]
  · exact h.hears hl hstop

theorem sendsLast (h : Flows head live due received j s) {x : Outcome Changes}
    (hp : j.forwarder.phase = .delivering x true) (s' : Store) : Flows head live due received
      (WatchJob.stopped { j with
        forwarder := { j.forwarder with phase := .listening, out := j.forwarder.out.send x } }) s' := by
  have hstop : j.forwarder.isStopped = false := by simp [Forwarder.isStopped, hp]
  have hwhole := h.whole hstop
  have hway : j.underWay head s = x :: (j.queued s).map (tell head) := by
    simp [underWay, hp]
  apply (h.sends hp).stopped
  obtain ⟨e, rfl⟩ := h.last x hp
  have hm : .error e ∈ due.map (tell head) := by
    rw [← hwhole, hway]
    simp
  cases hl : live with
  | true =>
    -- Nothing that a live feed has is a failure, so it has no last item.
    obtain ⟨y, hy, hye⟩ := List.mem_map.1 hm
    obtain ⟨b, rfl⟩ := h.due_ok hl y hy
    cases hye
  | false =>
    obtain ⟨e', hdue⟩ := h.due_error hl
    rw [hway, hdue] at hwhole
    have hlen := congrArg List.length hwhole
    have hnil : (j.queued s).map (tell head) = [] := by
      apply List.eq_nil_of_length_eq_zero
      simp only [List.length_append, List.length_map, List.length_cons, List.length_nil] at hlen
      simp only [List.length_map]
      omega
    rw [hnil] at hwhole
    refine .inr (.inr ⟨rfl, ?_⟩)
    simpa [Channel.send, hdue] using hwhole

theorem ended (h : Flows head live due received j s) {id : FeedId} (hid : j.feed = some id)
    (hp : j.forwarder.phase = .listening) (hx : (s.takeNext id).1 = .ended) :
    live = false ∧ received ++ j.forwarder.out.items = due.map (tell head) := by
  obtain ⟨f, hf, _, hlive⟩ := h.fed id hid
  have htake := Store.takeNext_of_feed? hf
  cases hq : f.queue with
  | nil =>
    rw [hq] at htake
    rw [htake, hlive] at hx
    have hstop : j.forwarder.isStopped = false := by simp [Forwarder.isStopped, hp]
    have hwhole := h.whole hstop
    have hway : j.underWay head s = [] := by simp [underWay, queued, hp, hid, hf, hq]
    rw [hway, List.append_nil] at hwhole
    cases live
    · exact ⟨rfl, hwhole⟩
    · cases hx
  | cons y queue =>
    rw [hq] at htake
    cases htake.1.symm.trans hx

theorem step {w w' : World} (h : Flows head live due received j w.backend.store)
    (hs : j.step? (World.env true) w = some (j', w')) : Flows head live due received j' w'.backend.store ∧
      w.backend.store.OnlyFeeds w'.backend.store ∧ (j.feed = none → j'.feed = none) := by
  have taken : ∀ {id : FeedId} {x : Next (Outcome Batch)} {v : World}, w.takeNext id = (x, v) →
      v.backend.store = (w.backend.store.takeNext id).2 ∧ w.backend.store.OnlyFeeds v.backend.store := by
    intro id x v hx
    have hv : v = (w.takeNext id).2 := (congrArg (·.2) hx).symm
    exact ⟨congrArg (·.backend.store) hv, hv ▸ w.backend.store.onlyFeeds_takeNext id⟩
  rcases steps_of_step? hs with ⟨hc, rfl, rfl⟩ | ⟨_, hsteps⟩
  · exact ⟨h.stopped (.inl hc) _, w.onlyFeeds_release _, fun _ => rfl⟩
  cases hsteps with
  | waits hp | opens hp | refused hp => exact absurd hp h.opened
  | hears hp hid hx =>
    obtain ⟨hv, honly⟩ := taken hx
    exact ⟨hv ▸ h.heard hid hp (congrArg (·.1) hx), honly, id⟩
  | @ends v _ hp hid hx =>
    have hall := h.ended hid hp (congrArg (·.1) hx)
    exact ⟨h.stopped (.inr (.inr hall)) _, (taken hx).2.trans (v.onlyFeeds_release _), fun _ => rfl⟩
  | leaves hp ha => exact ⟨h.stopped (.inr (.inl ha)) _, w.onlyFeeds_release _, fun _ => rfl⟩
  | sends hp _ => exact ⟨h.sends hp, .refl _, id⟩
  | sendsLast hp _ => exact ⟨h.sendsLast hp _, w.onlyFeeds_release _, fun _ => rfl⟩

end Flows

/-! ## Progress -/

def left (j : WatchJob) : Nat :=
  match j.forwarder.phase with
  | .delivering _ _ => 2
  | _ => 0

/-- How much is to be done until all is received. -/
def load (j : WatchJob) (s : Store) : Nat := 3 * (j.queued s).length + j.left + j.forwarder.out.items.length

/-- Neither end has been left. -/
structure Attended (j : WatchJob) : Prop where
  cancelled : j.forwarder.cancelled = false
  abandoned : j.forwarder.out.abandoned = false

theorem load_settleFeed {j j' : WatchJob} {w w' : World} (he : j.settleFeed w = (j', w')) :
    j'.forwarder = j.forwarder ∧ j'.load w'.backend.store ≤ j.load w.backend.store := by
  unfold settleFeed at he
  split at he
  · cases he
    refine ⟨rfl, ?_⟩
    simp only [load, queued, left]
    simp
  · cases he
    exact ⟨rfl, Nat.le_refl _⟩

theorem load_take {j j' : WatchJob} {x : Outcome Changes} (h : j.take = (.item x, j')) (s : Store) :
    j'.load s < j.load s := by
  obtain ⟨⟨trim, phase, cancelled, capacity, items, closed, abandoned⟩, opening, feed⟩ := j
  cases items with
  | nil => cases closed <;> cases h
  | cons y items =>
    cases h
    simp [load, queued, left]

namespace Flows

variable {head : String} {live : Bool} {due : List (Outcome Batch)} {received : List (Outcome Changes)}
  {j : WatchJob} {w : World}

theorem step_delivering (h : Flows head live due received j w.backend.store) (hj : j.Attended)
    (hi : j.forwarder.out.items = []) {x : Outcome Changes} {last : Bool} (hp : j.forwarder.phase = .delivering x last) :
    ∃ j' w', j.step? (World.env true) w = some (j', w') ∧ j'.load w'.backend.store < j.load w.backend.store ∧
      j'.Attended := by
  have hfull : j.forwarder.out.isFull = false := by
    have := h.room
    simp [Channel.isFull, hi]
    omega
  let f : Forwarder := { j.forwarder with phase := .listening, out := j.forwarder.out.send x }
  have hd : j.forwarder.deliver? x last = some (if last then f.stop else f) := by
    simp [Forwarder.deliver?, hj.abandoned, hfull, f]
  obtain ⟨out, hout⟩ : ∃ out, settleFeed { j with forwarder := if last then f.stop else f } w = out := ⟨_, rfl⟩
  have hstep : j.step? (World.env true) w = some out := by
    simp [step?, Forwarder.isStopped, hp, hj.cancelled, hd, hout]
  obtain ⟨hfor, hload⟩ := load_settleFeed hout
  refine ⟨out.1, out.2, hstep, Nat.lt_of_le_of_lt hload ?_, ?_⟩
  · cases last <;> simp [load, queued, left, hp, hi, f, Forwarder.stop, Channel.send, Channel.close]
  · constructor
    · rw [hfor]
      cases last <;> exact hj.cancelled
    · rw [hfor]
      cases last <;> exact hj.abandoned

theorem step_listening (h : Flows head live due received j w.backend.store) (hj : j.Attended)
    (hp : j.forwarder.phase = .listening) (hq : j.queued w.backend.store ≠ []) :
    ∃ j' w', j.step? (World.env true) w = some (j', w') ∧ j'.load w'.backend.store < j.load w.backend.store ∧
      j'.Attended := by
  cases hid : j.feed with
  | none => simp [queued, hid] at hq
  | some id =>
    obtain ⟨f, hf, _⟩ := h.fed id hid
    have htake := Store.takeNext_of_feed? hf
    cases hfq : f.queue with
    | nil => simp [queued, hid, hf, hfq] at hq
    | cons x queue =>
      rw [hfq] at htake
      obtain ⟨hx, hf'⟩ := htake
      have hw : w.takeNext id = (.item x, (w.takeNext id).2) := Prod.ext hx rfl
      obtain ⟨out, hout⟩ :
          ∃ out, settleFeed { j with forwarder := j.forwarder.heard (.item x) } (w.takeNext id).2 = out := ⟨_, rfl⟩
      have hl : j.stepListening w = some out := by
        simp only [stepListening, hid]
        rw [hw]
        exact hid ▸ congrArg some hout
      have hstep : j.step? (World.env true) w = some out := by
        simp [step?, Forwarder.isStopped, hp, hj.cancelled, hl]
      obtain ⟨hfor, hload⟩ := load_settleFeed hout
      have hf'' : (w.takeNext id).2.backend.store.feed? id = some { f with queue } := hf'
      refine ⟨out.1, out.2, hstep, Nat.lt_of_le_of_lt hload ?_, ?_⟩
      · cases x <;> simp [load, queued, left, Forwarder.heard, hid, hf, hf'', hfq, hp] <;> omega
      · constructor
        · rw [hfor]
          cases x <;> exact hj.cancelled
        · rw [hfor]
          cases x <;> exact hj.abandoned

theorem progress (h : Flows head live due received j w.backend.store) (hj : j.Attended) :
    received = due.map (tell head) ∨
    (∃ x j', j.take = (.item x, j') ∧ j'.load w.backend.store < j.load w.backend.store ∧ j'.Attended) ∨
    ∃ j' w', j.step? (World.env true) w = some (j', w') ∧ j'.load w'.backend.store < j.load w.backend.store ∧
      j'.Attended := by
  cases hi : j.forwarder.out.items with
  | cons x items =>
    have htake : j.take = (.item x, { j with forwarder := { j.forwarder with out := { j.forwarder.out with items } } }) := by
      simp [WatchJob.take, Channel.take, hi]
    exact .inr (.inl ⟨x, _, htake, load_take htake _, hj.cancelled, hj.abandoned⟩)
  | nil =>
    cases hs : j.forwarder.isStopped with
    | true =>
      rcases h.ends hs with hc | ha | ⟨_, hall⟩
      · cases hj.cancelled.symm.trans hc
      · cases hj.abandoned.symm.trans ha
      · rw [hi, List.append_nil] at hall
        exact .inl hall
    | false =>
      have hwhole := h.whole hs
      rw [hi, List.append_nil] at hwhole
      cases hp : j.forwarder.phase with
      | opening => exact absurd hp h.opened
      | stopped => simp [Forwarder.isStopped, hp] at hs
      | delivering x last => exact .inr (.inr (h.step_delivering hj hi hp))
      | listening =>
        by_cases hq : j.queued w.backend.store = []
        · have hway : j.underWay head w.backend.store = [] := by simp [underWay, hp, hq]
          rw [hway, List.append_nil] at hwhole
          exact .inl hwhole
        · exact .inr (.inr (h.step_listening hj hp hq))

end Flows

/-! ## Opening -/

/-- A watch of what is under a head since a revision, before it is open. -/
structure Opens (head : String) (start : Int) (j : WatchJob) : Prop where
  trim : j.forwarder.trim = some head
  room : 0 < j.forwarder.out.capacity
  phase : j.forwarder.phase = .opening
  items : j.forwarder.out.items = []
  feed : j.feed = none
  tries : ∃ policy, World.Tries policy (.watch (.under (Utf8.encode head)) (some start)) j.opening

variable {head : String} {start : Int} {j j' : WatchJob} {w w' : World}

theorem opens_start (c : Client) (head : String) {start : Int} (h : 0 < start) :
    Opens head start (.start c ⟨head, start, true, true⟩) where
  trim := rfl
  room := Nat.zero_lt_succ _
  phase := rfl
  items := rfl
  feed := rfl
  tries := by
    have hs : (⟨head, start, true, true⟩ : WatchRequest).start? = some start := if_pos h
    refine ⟨c.policy, c.policy.retries, .inl ?_⟩
    unfold WatchJob.start
    rw [hs]
    rfl

theorem flows_of_none {e : Failure} (ht : j.forwarder.trim = some head) (hr : 0 < j.forwarder.out.capacity)
    (hi : j.forwarder.out.items = []) (hf : j.feed = none) (s : Store)
    (hp : j.forwarder.phase = .stopped ∧ j.forwarder.cancelled = true ∨ j.forwarder.phase = .delivering (.error e) true) :
    Flows head false [.error e] [] j s where
  trim := ht
  room := hr
  opened := by rcases hp with ⟨hp, _⟩ | hp <;> rw [hp] <;> exact nofun
  fed id hid := by rw [hf] at hid; cases hid
  last x hx := by
    rcases hp with ⟨hp, _⟩ | hp <;> rw [hp] at hx <;> cases hx
    exact ⟨e, rfl⟩
  sent := by rw [hi]; exact List.nil_prefix
  whole hs := by
    rcases hp with ⟨hp, _⟩ | hp
    · simp [Forwarder.isStopped, hp] at hs
    · simp [underWay, queued, hi, hp, hf, tell, Except.map]
  due_ok := nofun
  due_error _ := ⟨e, rfl⟩
  hears := nofun
  ends hs := by
    rcases hp with ⟨_, hc⟩ | hp
    · exact .inl hc
    · simp [Forwarder.isStopped, hp] at hs

namespace Opens

theorem cancel (h : Opens head start j) : Opens head start j.cancel := { h with }

theorem abandon (h : Opens head start j) : Opens head start j.abandon := { h with }

theorem take (h : Opens head start j) {x : Outcome Changes} (hx : j.take = (.item x, j')) : False := by
  simp only [WatchJob.take, Channel.take, h.items] at hx
  split at hx <;> cases hx

theorem step (h : Opens head start j) (hs : j.step? (World.env true) w = some (j', w')) :
    (w'.backend.store = w.backend.store ∧
      (Opens head start j' ∨
        j'.feed = none ∧ ∃ k : FaultKind, Flows head false [.error k.failure] [] j' w'.backend.store)) ∨
    ∃ (b : Backend) (id : FeedId), b.store = w.backend.store ∧
      b.answer w.now (.watch (.under (Utf8.encode head)) (some start)) = (.ok id, w'.backend) ∧
      j' = { j with feed := some id, forwarder := j.forwarder.opened (.ok ()) } := by
  rcases steps_of_step? hs with ⟨hc, rfl, rfl⟩ | ⟨_, hsteps⟩
  · rw [h.feed]
    refine .inl ⟨rfl, .inr ⟨rfl, .proposalDropped, ?_⟩⟩
    exact flows_of_none (j := j.stopped) h.trim h.room h.items rfl _ (.inl ⟨rfl, hc⟩)
  obtain ⟨policy, ht⟩ := h.tries
  have hout := ht.watch w
  cases hsteps with
  | waits hp ha hr =>
    rw [ha] at hout
    rcases hout with ⟨hstore, htry | ⟨_, _, hd⟩⟩ | ⟨_, _, _, _, hd⟩
    · exact .inl ⟨hstore, .inl { h with tries := ⟨policy, htry⟩ }⟩
    all_goals cases hr.symm.trans (congrArg Prog.result? hd)
  | opens hp ha hr =>
    rw [ha] at hout
    rcases hout with ⟨_, htry | ⟨_, _, hd⟩⟩ | ⟨b, _, hstore, hans, hd⟩
    · cases hr.symm.trans htry.result?
    · cases hr.symm.trans (congrArg Prog.result? hd)
    · cases hr.symm.trans (congrArg Prog.result? hd)
      exact .inr ⟨b, _, hstore, hans, rfl⟩
  | @refused _ _ e hp ha hr =>
    rw [ha] at hout
    rcases hout with ⟨hstore, htry | ⟨_, ⟨⟨k, rfl⟩, _⟩, hd⟩⟩ | ⟨_, _, _, _, hd⟩
    · cases hr.symm.trans htry.result?
    · cases hr.symm.trans (congrArg Prog.result? hd)
      refine .inl ⟨hstore, .inr ⟨h.feed, k, ?_⟩⟩
      exact flows_of_none (j := { j with forwarder := j.forwarder.opened (.error k.failure) })
        h.trim h.room h.items h.feed _ (.inr rfl)
    · cases hr.symm.trans (congrArg Prog.result? hd)
  | hears hp | ends hp | leaves hp | sends hp | sendsLast hp => cases h.phase.symm.trans hp

theorem flows (h : Opens head start j) {id : FeedId} {s : Store} {live : Bool} {due : List (Outcome Batch)}
    (hf : s.feed? id = some ⟨id, .under (Utf8.encode head), live, due⟩)
    (hok : live = true → ∀ x ∈ due, ∃ b, x = .ok b) (herror : live = false → ∃ e, due = [.error e]) :
    Flows head live due [] { j with feed := some id, forwarder := j.forwarder.opened (.ok ()) } s where
  trim := h.trim
  room := h.room
  opened := nofun
  fed i hi := by
    cases hi
    exact ⟨_, hf, rfl, rfl⟩
  last := nofun
  sent := by
    show [] ++ j.forwarder.out.items <+: _
    rw [h.items]
    exact List.nil_prefix
  whole _ := by simp [Forwarder.opened, underWay, queued, h.items, hf]
  due_ok := hok
  due_error := herror
  hears _ _ := nofun
  ends := nofun

end Opens

end WatchJob

end Keyspace.Sim
