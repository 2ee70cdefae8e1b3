import Keyspace.Proofs.Watch.Forwarding

/-!
# What a relay passes on

A relay takes from the channel of a watch and sends diffs into the next; the two go on independently of each
other. To the watch the relay is one that takes and leaves (`Relaying.leads_source`), and so all holds of what
the relay passes on that holds of what the watch forwards (`watches_deliver`).
-/

namespace Keyspace

open Sim (World WorldEnv WatchJob RelayJob)

/-! ## Steps of a relay -/

namespace Sim.RelayJob

/-- A step of the relay alone. -/
def stepRelay (j : RelayJob) : Option RelayJob :=
  match j.relay.phase with
  | .delivering x _ => (j.relay.deliver? x).map j.set
  | .listening =>
    match j.source.take with
    | (.empty, _) => none
    | (x, s) => some (({ j with source := s }).set (j.relay.heard x))
  | _ => none

theorem step?_eq (h : WorldEnv) (j : RelayJob) (w : World) :
    j.step? h w = match j.stepRelay with
      | some j => some (j, w)
      | none => j.stepSource h w := by
  unfold step? stepRelay
  cases hp : j.relay.phase with
  | opening | stopped => rfl
  | delivering x last => cases hd : j.relay.deliver? x <;> simp [hd]
  | listening =>
    simp only
    cases hx : j.source.take with
    | mk x s => cases x <;> rfl

end Sim.RelayJob

def Relay.isStopped (r : Relay) : Bool :=
  match r.phase with
  | .stopped => true
  | _ => false

theorem Relay.isStopped_iff {r : Relay} : r.isStopped = true ↔ r.phase = .stopped := by
  unfold isStopped
  cases r.phase <;> simp

theorem map_toDiff (trim : Option String) (l : List (Outcome Batch)) :
    (l.map (Except.map (Changes.ofBatch trim))).map (Except.map Changes.toDiff) =
      l.map (Except.map (Changes.toDiff ∘ Changes.ofBatch trim)) := by
  rw [List.map_map]
  congr 1
  funext x
  cases x <;> rfl

/-! ## A relay in its world -/

/-- A watch, and a relay that has taken from it what the watch counts as received. -/
structure Relaying where
  source : Watching
  relay : Relay
  received : List (Outcome Diff)

namespace Relaying

def start (c : Client) (r : WatchRequest) (w : World) : Relaying := ⟨.start c r w, .start, []⟩

def job (x : Relaying) : RelayJob := ⟨x.relay, x.source.job⟩

inductive Act
  | other (w : World) (more : List (Outcome Batch))
  /-- The watch goes on. -/
  | work
  /-- The relay goes on. -/
  | relay
  | take
  | cancel
  | abandon

def Allows (x : Relaying) : Act → Prop
  | .other w more => x.source.Allows (.other w more)
  | _ => True

/-- What the relay takes in its next step. -/
def takes (x : Relaying) : List (Outcome Changes) :=
  match x.relay.phase with
  | .listening => x.source.job.take.1.toList
  | _ => []

def act (h : WorldEnv) (x : Relaying) : Act → Relaying
  | .other w more => { x with source := x.source.act h (.other w more) }
  | .work => { x with source := x.source.act h .work }
  | .relay =>
    match x.job.stepRelay with
    | none => x
    | some j =>
      { x with relay := j.relay, source := { x.source with job := j.source, received := x.source.received ++ x.takes } }
  | .take =>
    match x.relay.out.take with
    | (.item y, out) => { x with relay := { x.relay with out }, received := x.received ++ [y] }
    | _ => x
  | .cancel => { x with relay := x.job.cancel.relay, source := { x.source with job := x.job.cancel.source } }
  | .abandon => { x with relay := { x.relay with out := x.relay.out.abandon } }

inductive Leads (h : WorldEnv) : Relaying → Relaying → Prop
  | refl (x : Relaying) : Leads h x x
  | act {x y : Relaying} (hx : Leads h x y) (a : Act) (ha : y.Allows a) : Leads h x (y.act h a)

def entered (x : Relaying) : List (Outcome Diff) := x.received ++ x.relay.out.items

variable {h : WorldEnv} {trim : Option String} {x y : Relaying}

/-- What a step of the relay can be. -/
inductive Steps (h : WorldEnv) (x : Relaying) : Relaying → Prop
  | still : Steps h x x
  | hears {c : Outcome Changes} {items : List (Outcome Changes)} (hp : x.relay.phase = .listening)
      (hi : x.source.job.forwarder.out.items = c :: items) :
      Steps h x ⟨x.source.act h .take, x.relay.heard (.item c), x.received⟩
  | ends (hp : x.relay.phase = .listening) (hi : x.source.job.forwarder.out.items = [])
      (hc : x.source.job.forwarder.out.closed = true) :
      Steps h x ⟨x.source.act h .abandon, x.relay.stop, x.received⟩
  | leaves {d : Outcome Diff} {last : Bool} (hp : x.relay.phase = .delivering d last)
      (he : x.relay.cancelled = true ∨ x.relay.out.abandoned = true) :
      Steps h x ⟨x.source.act h .abandon, x.relay.stop, x.received⟩
  | sends {d : Outcome Diff} {last : Bool} (hp : x.relay.phase = .delivering d last)
      (hc : x.relay.cancelled = false) (hr : x.relay.out.isFull = false) :
      Steps h x ⟨x.source, { x.relay with phase := .listening, out := x.relay.out.send d }, x.received⟩

theorem act_relay {j : RelayJob} (hs : x.job.stepRelay = some j) : x.act h .relay =
    ⟨{ x.source with job := j.source, received := x.source.received ++ x.takes }, j.relay, x.received⟩ := by
  simp only [act, hs]

theorem steps_of_listening (hp : x.relay.phase = .listening) : Steps h x (x.act h .relay) := by
  cases hi : x.source.job.forwarder.out.items with
  | nil =>
    cases hc : x.source.job.forwarder.out.closed with
    | false =>
      have hs : x.job.stepRelay = none := by
        simp [job, Sim.RelayJob.stepRelay, hp, WatchJob.take, Channel.take, hi, hc]
      have he : x.act h .relay = x := by simp only [act, hs]
      exact he.symm ▸ .still
    | true =>
      have hs : x.job.stepRelay = some (x.job.set x.relay.stop) := by
        simp [job, Sim.RelayJob.stepRelay, hp, WatchJob.take, Channel.take, hi, hc, Relay.heard]
      have ht : x.takes = [] := by simp [takes, hp, WatchJob.take, Channel.take, hi, hc, Next.toList]
      rw [act_relay hs, ht, List.append_nil]
      exact .ends hp hi hc
  | cons c items =>
    have hs : x.job.stepRelay = some ⟨x.relay.heard (.item c), { x.source.job with
        forwarder := { x.source.job.forwarder with out := { x.source.job.forwarder.out with items } } }⟩ := by
      simp [job, Sim.RelayJob.stepRelay, hp, WatchJob.take, Channel.take, hi, Relay.heard, Sim.RelayJob.set]
    have ht : x.takes = [c] := by simp [takes, hp, WatchJob.take, Channel.take, hi, Next.toList]
    rw [act_relay hs, ht]
    have hhears := Steps.hears (h := h) hp hi
    rwa [Watching.act_take_of_items hi] at hhears

theorem steps_of_delivering {d : Outcome Diff} {last : Bool} (hp : x.relay.phase = .delivering d last) :
    Steps h x (x.act h .relay) := by
  have hstep : x.job.stepRelay = (x.relay.deliver? d).map x.job.set := by simp [job, Sim.RelayJob.stepRelay, hp]
  have ht : x.takes = [] := by simp [takes, hp]
  unfold Relay.deliver? at hstep
  split at hstep
  · rename_i he
    rw [act_relay hstep, ht, List.append_nil]
    exact .leaves hp (by simpa using he)
  rename_i he
  split at hstep
  · have he : x.act h .relay = x := by simp only [act, hstep, Option.map_none]
    exact he.symm ▸ .still
  · rename_i hr
    have hc : x.relay.cancelled = false := by
      simp only [Bool.or_eq_true, not_or, Bool.not_eq_true] at he
      exact he.1
    rw [act_relay hstep, ht, List.append_nil]
    exact .sends hp hc (by simpa using hr)

theorem steps_relay (h : WorldEnv) (x : Relaying) : Steps h x (x.act h .relay) := by
  cases hp : x.relay.phase with
  | opening | stopped =>
    have hs : x.job.stepRelay = none := by simp [job, Sim.RelayJob.stepRelay, hp]
    have he : x.act h .relay = x := by simp only [act, hs]
    exact he.symm ▸ .still
  | delivering d last => exact steps_of_delivering hp
  | listening => exact steps_of_listening hp

theorem act_take (h : WorldEnv) (x : Relaying) : x.act h .take = x ∨
    ∃ d items, x.relay.out.items = d :: items ∧ x.act h .take =
      { x with relay := { x.relay with out := { x.relay.out with items } }, received := x.received ++ [d] } := by
  cases hi : x.relay.out.items with
  | nil =>
    left
    simp only [act, Channel.take, hi]
    cases x.relay.out.closed <;> rfl
  | cons d items =>
    refine .inr ⟨d, items, rfl, ?_⟩
    simp only [act, Channel.take, hi]

theorem world_relay (h : WorldEnv) (x : Relaying) : (x.act h .relay).source.world = x.source.world := by
  unfold act
  cases x.job.stepRelay <;> rfl

/-! ## What holds at any time -/

/-- All that the watch has told has been passed on. -/
def Done (trim : Option String) (x : Relaying) : Prop :=
  x.entered = x.source.entered.map (Except.map Changes.toDiff) ∧ x.source.job.forwarder.phase = .stopped ∧
    x.source.Whole trim

/-- How far a relay is in a phase. It leaves the watch only when it stops. -/
inductive Stands (trim : Option String) (x : Relaying) : Phase (Outcome Diff) → Prop
  | listening (hin : x.entered = x.source.received.map (Except.map Changes.toDiff))
      (ha : x.source.job.forwarder.out.abandoned = false) : Stands trim x .listening
  | delivering {cs : List (Outcome Changes)} {c : Outcome Changes} {last : Bool} (ht : x.source.received = cs ++ [c])
      (hin : x.entered = cs.map (Except.map Changes.toDiff)) (ha : x.source.job.forwarder.out.abandoned = false) :
      Stands trim x (.delivering (c.map Changes.toDiff) last)
  | stopped (hp : x.entered <+: x.source.received.map (Except.map Changes.toDiff))
      (he : x.relay.cancelled = true ∨ x.relay.out.abandoned = true ∨ x.Done trim) : Stands trim x .stopped

structure Relays (trim : Option String) (x : Relaying) : Prop where
  stands : x.Stands trim x.relay.phase
  source : x.source.Forwards trim
  cancelled : x.source.job.forwarder.cancelled = x.relay.cancelled
  capacity : x.relay.out.capacity = watchCapacity
  room : x.relay.out.items.length ≤ watchCapacity
  closed : x.relay.out.closed = x.relay.isStopped

theorem relays_start (c : Client) (r : WatchRequest) (w : World) : (start c r w).Relays r.trim? where
  stands := .listening rfl rfl
  source := Watching.forwards_start c r w
  cancelled := rfl
  capacity := rfl
  room := Nat.zero_le _
  closed := rfl

theorem Relays.initial (hx : x.Relays trim) : x.entered <+: x.source.received.map (Except.map Changes.toDiff) := by
  have hs := hx.stands
  generalize x.relay.phase = p at hs
  cases hs with
  | listening hin _ => exact hin ▸ List.prefix_rfl
  | delivering ht hin _ =>
    rw [hin, ht, List.map_append]
    exact List.prefix_append _ _
  | stopped hp _ => exact hp

theorem Relays.unclosed (hx : x.Relays trim) (hp : x.relay.phase ≠ .stopped) : x.relay.out.closed = false := by
  rw [hx.closed]
  exact Bool.eq_false_iff.2 (hp ∘ Relay.isStopped_iff.1)

/-! ## Acts -/

theorem Done.act (hd : x.Done trim) (hx : x.source.Forwards trim) {a : Watching.Act} (ha : x.source.Allows a) :
    Done trim { x with source := x.source.act h a } := by
  obtain ⟨hin, hp, hw⟩ := hd
  obtain ⟨hp', htold, hover, hentered⟩ := hx.act_of_stopped (h := h) hp ha
  refine ⟨?_, hp', ?_⟩
  · show x.entered = _
    rw [hin, hentered]
  · unfold Watching.Whole
    rw [htold, hover, hentered]
    exact hw

/-- The watch goes on by itself, or hears more. -/
theorem Relays.ofSource (hx : x.Relays trim) {a : Watching.Act} (ha : x.source.Allows a)
    (hr : (x.source.act h a).received = x.source.received)
    (hc : (x.source.act h a).job.forwarder.cancelled = x.source.job.forwarder.cancelled)
    (hl : (x.source.act h a).job.forwarder.out.abandoned = x.source.job.forwarder.out.abandoned) :
    Relays trim { x with source := x.source.act h a } := by
  refine { hx with stands := ?_, source := hx.source.act ha, cancelled := hc.trans hx.cancelled }
  have hs := hx.stands
  show Stands trim _ x.relay.phase
  generalize x.relay.phase = p at hs
  cases hs with
  | listening hin ha' => exact .listening (hr.symm ▸ hin) (hl.trans ha')
  | delivering ht hin ha' => exact .delivering (hr.trans ht) hin (hl.trans ha')
  | stopped hp he => exact .stopped (hr.symm ▸ hp) (he.imp_right (Or.imp_right fun hd => hd.act hx.source ha))

theorem Relays.cancel (hx : x.Relays trim) : (x.act h .cancel).Relays trim := by
  refine { hx with stands := ?_, source := hx.source.cancel (h := h), cancelled := rfl }
  have hs := hx.stands
  show Stands trim _ x.relay.phase
  generalize x.relay.phase = p at hs
  cases hs with
  | listening hin ha => exact .listening hin ha
  | delivering ht hin ha => exact .delivering ht hin ha
  | stopped hp _ => exact .stopped hp (.inl rfl)

theorem Relays.abandon (hx : x.Relays trim) : (x.act h .abandon).Relays trim := by
  refine { hx with stands := ?_ }
  have hs := hx.stands
  show Stands trim _ x.relay.phase
  generalize x.relay.phase = p at hs
  cases hs with
  | listening hin ha => exact .listening hin ha
  | delivering ht hin ha => exact .delivering ht hin ha
  | stopped hp _ => exact .stopped hp (.inr (.inl rfl))

theorem Relays.take (hx : x.Relays trim) : (x.act h .take).Relays trim := by
  rcases x.act_take h with he | ⟨d, items, hi, he⟩
  · rwa [he]
  have hin : (x.act h .take).entered = x.entered := by
    rw [he]
    simp [entered, hi]
  have hroom := hx.room
  rw [hi, List.length_cons] at hroom
  rw [he] at hin ⊢
  refine { hx with stands := ?_, room := Nat.le_of_succ_le hroom }
  have hs := hx.stands
  show Stands trim _ x.relay.phase
  generalize x.relay.phase = p at hs
  cases hs with
  | listening hin' ha => exact .listening (hin.trans hin') ha
  | delivering ht hin' ha => exact .delivering ht (hin.trans hin') ha
  | stopped hp he =>
    exact .stopped (hin.symm ▸ hp) (he.imp_right (Or.imp_right fun hd => ⟨hin.trans hd.1, hd.2⟩))

theorem Relays.stop (hx : x.Relays trim)
    (he : x.relay.cancelled = true ∨ x.relay.out.abandoned = true ∨ x.Done trim) :
    Relays trim ⟨x.source.act h .abandon, x.relay.stop, x.received⟩ where
  stands := .stopped hx.initial he
  source := hx.source.abandon (h := h)
  cancelled := hx.cancelled
  capacity := hx.capacity
  room := hx.room
  closed := rfl

theorem Relays.hears (hx : x.Relays trim) (hp : x.relay.phase = .listening) {c : Outcome Changes}
    {items : List (Outcome Changes)} (hi : x.source.job.forwarder.out.items = c :: items) :
    Relays trim ⟨x.source.act h .take, x.relay.heard (.item c), x.received⟩ := by
  have hs := hx.stands
  rw [hp] at hs
  cases hs with
  | listening hin ha =>
    have hsource := hx.source.take (h := h)
    rw [Watching.act_take_of_items hi] at hsource ⊢
    exact { hx with
      stands := .delivering rfl hin ha, source := hsource, closed := hx.unclosed (hp ▸ nofun) }

/-- The channel of the watch is found closed. -/
theorem Relays.ends (hx : x.Relays trim) (hp : x.relay.phase = .listening)
    (hi : x.source.job.forwarder.out.items = []) (hc : x.source.job.forwarder.out.closed = true) :
    Relays trim ⟨x.source.act h .abandon, x.relay.stop, x.received⟩ := by
  have hs := hx.stands
  rw [hp] at hs
  cases hs with
  | listening hin ha =>
    have hstop : x.source.job.forwarder.phase = .stopped :=
      Forwarder.isStopped_iff.1 (hx.source.closed.symm.trans hc)
    have hsource := hx.source.stands
    rw [hstop] at hsource
    cases hsource with
    | stopped _ _ he =>
      apply hx.stop
      rcases he with hc' | ha' | hw
      · exact .inl (hx.cancelled ▸ hc')
      · cases ha.symm.trans ha'
      · refine .inr (.inr ⟨?_, hstop, hw⟩)
        rw [hin, Watching.entered, hi, List.append_nil]

theorem Relays.sends (hx : x.Relays trim) {d : Outcome Diff} {last : Bool}
    (hp : x.relay.phase = .delivering d last) (hr : x.relay.out.isFull = false) :
    Relays trim ⟨x.source, { x.relay with phase := .listening, out := x.relay.out.send d }, x.received⟩ := by
  have hs := hx.stands
  rw [hp] at hs
  cases hs with
  | @delivering cs c _ ht hin ha =>
    have hroom : (x.relay.out.send (c.map Changes.toDiff)).items.length ≤ watchCapacity :=
      hx.capacity ▸ Channel.length_send_le hr _
    refine { hx with stands := .listening ?_ ha, room := hroom, closed := hx.unclosed (hp ▸ nofun) }
    calc x.received ++ (x.relay.out.items ++ [c.map Changes.toDiff])
        = x.entered ++ [c.map Changes.toDiff] := (List.append_assoc ..).symm
      _ = x.source.received.map (Except.map Changes.toDiff) := by
        rw [hin, ht, List.map_append]
        rfl

theorem Relays.relay (hx : x.Relays trim) : (x.act h .relay).Relays trim := by
  have hsteps := x.steps_relay h
  generalize x.act h .relay = y at hsteps
  cases hsteps with
  | still => exact hx
  | hears hp hi => exact hx.hears hp hi
  | ends hp hi hc => exact hx.ends hp hi hc
  | leaves _ he => exact hx.stop (he.imp_right .inl)
  | sends hp _ hr => exact hx.sends hp hr

theorem Relays.act (hx : x.Relays trim) {a : Act} (ha : x.Allows a) : (x.act h a).Relays trim := by
  cases a with
  | other w more => exact hx.ofSource (h := h) (a := .other w more) ha rfl rfl rfl
  | work =>
    obtain ⟨hr, hc, hl⟩ := x.source.work_frame h
    exact hx.ofSource (a := .work) trivial hr hc hl
  | relay => exact hx.relay
  | take => exact hx.take
  | cancel => exact hx.cancel
  | abandon => exact hx.abandon

theorem Relays.leads (hx : x.Relays trim) (hy : Leads h x y) : y.Relays trim := by
  induction hy with
  | refl => exact hx
  | act _ a ha ih => exact ih.act ha

/-! ## Blocked and cancelled relays -/

/-- A relay and its watch stand still only when the relay is done, the watch still opens, there is no room, or all
is told. -/
theorem Relays.blocked (hx : x.Relays trim) (hs : x.job.step? h x.source.world = none) :
    x.relay.isStopped = true ∨
      (x.source.job.forwarder.phase = .opening ∧ x.source.job.opening.isReady h x.source.world = false) ∨
      x.relay.out.isFull = true ∨
      x.entered = x.source.told.map (Except.map (Changes.toDiff ∘ Changes.ofBatch trim)) ∧ x.source.ended = false := by
  rw [Sim.RelayJob.step?_eq] at hs
  cases hr : x.job.stepRelay with
  | some j =>
    rw [hr] at hs
    cases hs
  | none =>
    rw [hr] at hs
    have hsource : x.source.job.step? h x.source.world = none := Option.map_eq_none_iff.1 hs
    have hstands := hx.stands
    cases hp : x.relay.phase with
    | stopped => exact .inl (by rw [Relay.isStopped, hp])
    | opening =>
      rw [hp] at hstands
      cases hstands
    | delivering d last =>
      simp only [job, Sim.RelayJob.stepRelay, hp, Option.map_eq_none_iff] at hr
      unfold Relay.deliver? at hr
      split at hr
      · cases hr
      split at hr
      · rename_i hfull
        exact .inr (.inr (.inl hfull))
      · cases hr
    | listening =>
      rw [hp] at hstands
      cases hstands with
      | listening hin ha =>
        have hempty : x.source.job.forwarder.out.items = [] ∧ x.source.job.forwarder.out.closed = false := by
          cases hi : x.source.job.forwarder.out.items with
          | nil =>
            cases hc : x.source.job.forwarder.out.closed with
            | false => exact ⟨rfl, rfl⟩
            | true => simp [job, Sim.RelayJob.stepRelay, hp, WatchJob.take, Channel.take, hi, hc] at hr
          | cons c items => simp [job, Sim.RelayJob.stepRelay, hp, WatchJob.take, Channel.take, hi] at hr
        obtain ⟨hi, hc⟩ := hempty
        rcases hx.source.blocked hsource with hstop | hopen | hfull | ⟨hall, hover⟩
        · cases hc.symm.trans (hx.source.closed.trans hstop)
        · exact .inr (.inl hopen)
        · simp [Channel.isFull, hi, hx.source.capacity, watchCapacity] at hfull
        · refine .inr (.inr (.inr ⟨?_, hover⟩))
          rw [Watching.entered, hi, List.append_nil] at hall
          rw [hin, hall, map_toDiff]

theorem act_of_cancelled (hc : x.relay.cancelled = true) (a : Act) :
    (x.act h a).relay.cancelled = true ∧ (x.act h a).entered = x.entered := by
  cases a with
  | other | work | abandon => exact ⟨hc, rfl⟩
  | cancel => exact ⟨rfl, rfl⟩
  | take =>
    rcases x.act_take h with he | ⟨d, items, hi, he⟩
    · rw [he]
      exact ⟨hc, rfl⟩
    · rw [he]
      exact ⟨hc, by simp [entered, hi]⟩
  | relay =>
    have hsteps := x.steps_relay h
    generalize x.act h .relay = y at hsteps
    cases hsteps with
    | still | hears | ends | leaves => exact ⟨hc, rfl⟩
    | sends _ hn _ => cases hn.symm.trans hc

theorem Leads.entered (hy : Leads h x y) (hc : x.relay.cancelled = true) :
    y.relay.cancelled = true ∧ y.entered = x.entered := by
  induction hy with
  | refl => exact ⟨hc, rfl⟩
  | act _ a _ ih =>
    obtain ⟨hc', he⟩ := act_of_cancelled ih.1 a
    exact ⟨hc', he.trans ih.2⟩

theorem allows_own {a : Act} (ha : ∀ w more, a ≠ .other w more) : x.Allows a := by
  cases a with
  | other w more => exact absurd rfl (ha w more)
  | _ => trivial

/-- To the watch a relay is one that takes and leaves. -/
theorem source_act (h : WorldEnv) (x : Relaying) {a : Act} (ha : ∀ w more, a ≠ .other w more) :
    (x.act h a).source = x.source ∨
      ∃ b : Watching.Act, (∀ w more, b ≠ .other w more) ∧ (x.act h a).source = x.source.act h b := by
  cases a with
  | other w more => exact absurd rfl (ha w more)
  | work => exact .inr ⟨.work, nofun, rfl⟩
  | cancel => exact .inr ⟨.cancel, nofun, rfl⟩
  | take =>
    left
    rcases x.act_take h with he | ⟨_, _, _, he⟩
    · rw [he]
    · rw [he]
  | abandon => exact .inl rfl
  | relay =>
    have hsteps := x.steps_relay h
    generalize x.act h .relay = y at hsteps
    cases hsteps with
    | still | sends => exact .inl rfl
    | hears => exact .inr ⟨.take, nofun, rfl⟩
    | ends | leaves => exact .inr ⟨.abandon, nofun, rfl⟩

theorem leads_source (hy : Leads h x y) : Watching.Leads h x.source y.source := by
  induction hy with
  | refl => exact .refl _
  | @act z hz a ha ih =>
    by_cases ho : ∃ w more, a = .other w more
    · obtain ⟨w, more, rfl⟩ := ho
      exact ih.act (.other w more) ha
    · rcases z.source_act h fun w more he => ho ⟨w, more, he⟩ with he | ⟨b, hb, he⟩
      · rwa [he]
      · rw [he]
        exact ih.act b (Watching.allows_own hb)

end Relaying

/-! ## What is received -/

/-- What comes of a feed that was told `told`, through a channel that `f` of its batches is sent into. -/
structure Delivers {β : Type} (f : Batch → β) (told : List (Outcome Batch)) (ended : Bool)
    (received : List (Outcome β)) (out : Channel (Outcome β)) (cancelled stopped : Bool) : Prop where
  ordered : received <+: told.map (Except.map f)
  /-- A failure is the first one, and nothing is received after it. -/
  error_last : ∀ xs e ys, received = xs ++ .error e :: ys → ys = [] ∧
    ∃ (bs : List Batch) (rest : List (Outcome Batch)), told = bs.map .ok ++ .error e :: rest
  /-- Found closed, and not for a cancellation, the channel has brought all up to the end or the first failure. -/
  complete : out.take.1 = .ended → cancelled = false → out.abandoned = false →
    received = (toFailure told).map (Except.map f) ∧ (ended = true ∨ ∃ e, .error e ∈ told)
  closes : stopped = true → out.closed = true
  room : out.capacity = watchCapacity ∧ out.items.length ≤ watchCapacity

theorem delivers_of {β : Type} {f : Batch → β} {told : List (Outcome Batch)} {ended : Bool}
    {received : List (Outcome β)} {out : Channel (Outcome β)} {cancelled stopped : Bool}
    (hin : received ++ out.items <+: (toFailure told).map (Except.map f)) (hclosed : out.closed = stopped)
    (hroom : out.capacity = watchCapacity ∧ out.items.length ≤ watchCapacity)
    (hstop : stopped = true → cancelled = true ∨ out.abandoned = true ∨
      received ++ out.items = (toFailure told).map (Except.map f) ∧ (ended = true ∨ ∃ e, .error e ∈ told)) :
    Delivers f told ended received out cancelled stopped where
  ordered := ((List.prefix_append _ _).trans hin).trans ((prefix_toFailure told).map _)
  error_last xs e ys he := error_of_prefix f (he ▸ (List.prefix_append _ _).trans hin)
  complete ht hc ha := by
    obtain ⟨hi, hclose⟩ := Channel.take_eq_ended ht
    rcases hstop (hclosed.symm.trans hclose) with hc' | ha' | hall
    · cases hc.symm.trans hc'
    · cases ha.symm.trans ha'
    · rwa [hi, List.append_nil] at hall
  closes hs := hclosed.trans hs
  room := hroom

/-- What holds of a watch in `x`, and will from then on. -/
structure Watching.Keeps (h : WorldEnv) (trim : Option String) (x : Watching) : Prop where
  delivers : Delivers (Changes.ofBatch trim) x.told x.ended x.received x.job.forwarder.out
    x.job.forwarder.cancelled x.job.forwarder.isStopped
  blocked : x.job.step? h x.world = none → x.job.forwarder.isStopped = true ∨
    (x.job.forwarder.phase = .opening ∧ x.job.opening.isReady h x.world = false) ∨
    x.job.forwarder.out.isFull = true ∨
    x.entered = x.told.map (Except.map (Changes.ofBatch trim)) ∧ x.ended = false
  silent : x.job.forwarder.cancelled = true → ∀ y, Leads h x y → y.entered = x.entered
  idle : x.job.forwarder.cancelled = true → x.job.feed = none → ∀ y, Leads h x y →
    (y.act h .work).world = y.world

structure Relaying.Keeps (h : WorldEnv) (trim : Option String) (x : Relaying) : Prop where
  delivers : Delivers (Changes.toDiff ∘ Changes.ofBatch trim) x.source.told x.source.ended x.received x.relay.out
    x.relay.cancelled x.relay.isStopped
  blocked : x.job.step? h x.source.world = none → x.relay.isStopped = true ∨
    (x.source.job.forwarder.phase = .opening ∧ x.source.job.opening.isReady h x.source.world = false) ∨
    x.relay.out.isFull = true ∨
    x.entered = x.source.told.map (Except.map (Changes.toDiff ∘ Changes.ofBatch trim)) ∧ x.source.ended = false
  silent : x.relay.cancelled = true → ∀ y, Leads h x y → y.entered = x.entered
  idle : x.relay.cancelled = true → x.source.job.feed = none → ∀ y, Leads h x y →
    ((y.act h .work).source.world = y.source.world ∧ (y.act h .relay).source.world = y.source.world)

variable {h : WorldEnv} {trim : Option String}

theorem Watching.Forwards.keeps {x : Watching} (hx : x.Forwards trim) : x.Keeps h trim where
  delivers := by
    refine delivers_of hx.initial hx.closed ⟨hx.capacity, hx.room⟩ fun hstop => ?_
    have hs := hx.stands
    rw [Forwarder.isStopped_iff.1 hstop] at hs
    cases hs with
    | stopped _ _ he => exact he
  blocked := hx.blocked
  silent hc y hy := (hy.entered hc).2
  idle hc hf y hy := (hy.idle hc hf).2

theorem Relaying.Relays.keeps {x : Relaying} (hx : x.Relays trim) : x.Keeps h trim where
  delivers := by
    have hin : x.entered <+: (toFailure x.source.told).map (Except.map (Changes.toDiff ∘ Changes.ofBatch trim)) := by
      rw [← map_toDiff]
      exact hx.initial.trans (((List.prefix_append _ _).trans hx.source.initial).map _)
    refine delivers_of hin hx.closed ⟨hx.capacity, hx.room⟩ fun hstop => ?_
    have hs := hx.stands
    rw [Relay.isStopped_iff.1 hstop] at hs
    cases hs with
    | stopped _ he =>
      refine he.imp_right (Or.imp_right fun hd => ⟨?_, hd.2.2.2⟩)
      rw [← map_toDiff, ← hd.2.2.1]
      exact hd.1
  blocked := hx.blocked
  silent hc y hy := (hy.entered hc).2
  idle hc hf y hy := ⟨((leads_source hy).idle (hx.cancelled.trans hc) hf).2, world_relay h y⟩

/-- What is received from a watch, or from a relay of one, is what its feed was told, in order. -/
theorem watches_deliver (h : WorldEnv) (c : Client) (r : WatchRequest) (w : World) :
    (∀ x, Watching.Leads h (.start c r w) x → x.Keeps h r.trim?) ∧
      ∀ x, Relaying.Leads h (.start c r w) x → x.Keeps h r.trim? :=
  ⟨fun _ hx => ((Watching.forwards_start c r w).leads hx).keeps,
    fun _ hx => ((Relaying.relays_start c r w).leads hx).keeps⟩

theorem Watching.Leads.acts (l : List Watching.Act) (hl : ∀ a ∈ l, ∀ z : Watching, z.Allows a) :
    ∀ {x y : Watching}, Watching.Leads h x y → Watching.Leads h x (l.foldl (Watching.act h) y) := by
  induction l with
  | nil => exact fun hy => hy
  | cons a l ih =>
    exact fun hy => ih (fun b hb => hl b (List.mem_cons_of_mem _ hb)) (hy.act a (hl a List.mem_cons_self _))

theorem Relaying.Leads.acts (l : List Relaying.Act) (hl : ∀ a ∈ l, ∀ z : Relaying, z.Allows a) :
    ∀ {x y : Relaying}, Relaying.Leads h x y → Relaying.Leads h x (l.foldl (Relaying.act h) y) := by
  induction l with
  | nil => exact fun hy => hy
  | cons a l ih =>
    exact fun hy => ih (fun b hb => hl b (List.mem_cons_of_mem _ hb)) (hy.act a (hl a List.mem_cons_self _))

/-- The feed carries a failure between two batches. -/
theorem watches_deliver_broken :
    let h := World.env false
    let c : Client := .ofConfig Config.standard
    let r : WatchRequest := ⟨"p/", 1, true, true⟩
    let told : List (Outcome Batch) := [
      .ok ⟨2, [⟨.put, ⟨Utf8.encode "p/a", [1], 2, 2, 1, 0⟩⟩, ⟨.delete, ⟨Utf8.encode "p/b", [], 0, 2, 0, 0⟩⟩]⟩,
      .error .proposalDropped, .ok ⟨3, []⟩]
    let w : World := ⟨0, .ofMembers ["a"], [⟨.watch, 1, { Sim.Act.plain .watch with reply := some told }⟩]⟩
    let acts : List Watching.Act := [.work, .work, .work, .work, .take, .work, .take]
    let relayed : List Relaying.Act :=
      [.work, .work, .work, .relay, .work, .relay, .work, .relay, .relay, .relay, .take, .take]
    let x := acts.foldl (Watching.act h) (.start c r w)
    let y := relayed.foldl (Relaying.act h) (.start c r w)
    (Watching.Leads h (.start c r w) x ∧ x.Keeps h r.trim? ∧
      x.received.map Except.toOption = [some ⟨.ofList [("a", ⟨"a", [1], 1, 2, 2, 0⟩)], ["b"]⟩, none]) ∧
    (Relaying.Leads h (.start c r w) y ∧ y.Keeps h r.trim? ∧
      y.received.map Except.toOption = [some ⟨.ofList [("a", [1])], .empty, .ofList ["b"]⟩, none]) := by
  intro h c r told w acts relayed x y
  have hx : Watching.Leads h (.start c r w) x := by
    refine (Watching.Leads.refl _).acts acts fun a ha _ => ?_
    simp only [acts, List.mem_cons, List.not_mem_nil, or_false] at ha
    rcases ha with rfl | rfl | rfl | rfl | rfl | rfl | rfl <;> trivial
  have hy : Relaying.Leads h (.start c r w) y := by
    refine (Relaying.Leads.refl _).acts relayed fun a ha _ => ?_
    simp only [relayed, List.mem_cons, List.not_mem_nil, or_false] at ha
    rcases ha with rfl | rfl | rfl | rfl | rfl | rfl | rfl | rfl | rfl | rfl | rfl | rfl <;> trivial
  exact ⟨⟨hx, (watches_deliver h c r w).1 x hx, by decide +kernel⟩,
    hy, (watches_deliver h c r w).2 y hy, by decide +kernel⟩

end Keyspace
