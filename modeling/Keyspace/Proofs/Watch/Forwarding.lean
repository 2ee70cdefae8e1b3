import Keyspace.Proofs.Watch.Steps

/-!
# What a watch forwards

A watch forwards its feed item by item, whatever the feed is told and whenever the watch goes on, is taken from,
cancelled or left: what has entered its channel is the first of what the feed had, up to its first failure
(`Watching.Forwards.leads`), and nothing enters once it is cancelled (`Watching.Leads.entered`).
-/

namespace Keyspace

open Sim (World WorldEnv WatchJob)

/-! ## Up to a failure -/

section
variable {α β : Type}

/-- The items up to the first failure, and that. -/
def toFailure : List (Outcome α) → List (Outcome α)
  | [] => []
  | .ok x :: l => .ok x :: toFailure l
  | .error e :: _ => [.error e]

theorem toFailure_append (xs : List α) (l : List (Outcome α)) :
    toFailure (xs.map .ok ++ l) = xs.map .ok ++ toFailure l := by
  induction xs with
  | nil => rfl
  | cons x xs ih => exact congrArg (Except.ok x :: ·) ih

theorem toFailure_map_ok (xs : List α) : toFailure (xs.map .ok) = xs.map .ok := by
  have h := toFailure_append xs []
  rwa [toFailure, List.append_nil] at h

theorem fails_or (l : List (Outcome α)) :
    (∃ xs : List α, l = xs.map .ok) ∨ ∃ (xs : List α) (e : Failure) (rest : List (Outcome α)),
      l = xs.map .ok ++ .error e :: rest := by
  induction l with
  | nil => exact .inl ⟨[], rfl⟩
  | cons x l ih =>
    cases x with
    | error e => exact .inr ⟨[], e, l, rfl⟩
    | ok x =>
      rcases ih with ⟨xs, rfl⟩ | ⟨xs, e, rest, rfl⟩
      · exact .inl ⟨x :: xs, rfl⟩
      · exact .inr ⟨x :: xs, e, rest, rfl⟩

theorem prefix_toFailure (l : List (Outcome α)) : toFailure l <+: l := by
  rcases fails_or l with ⟨xs, rfl⟩ | ⟨xs, e, rest, rfl⟩
  · exact (toFailure_map_ok xs).symm ▸ List.prefix_rfl
  · rw [toFailure_append]
    exact List.prefix_append_right_inj _ |>.2 ⟨rest, rfl⟩

/-- A failure among them is the first one, and the last item. -/
theorem error_of_prefix (f : α → β) {ys : List (Outcome β)} {e : Failure} : ∀ {l : List (Outcome α)}
    {xs : List (Outcome β)}, xs ++ .error e :: ys <+: (toFailure l).map (Except.map f) →
      ys = [] ∧ ∃ (as : List α) (rest : List (Outcome α)), l = as.map .ok ++ .error e :: rest
  | [], xs, h => by simp [toFailure] at h
  | .error e' :: l, [], h => by
    obtain ⟨he, hys⟩ := List.cons_prefix_cons.1 h
    cases he
    exact ⟨List.prefix_nil.1 hys, [], l, rfl⟩
  | .error e' :: l, x :: xs, h => by simpa using List.prefix_nil.1 (List.cons_prefix_cons.1 h).2
  | .ok a :: l, [], h => nomatch (List.cons_prefix_cons.1 h).1
  | .ok a :: l, x :: xs, h => by
    obtain ⟨hys, as, rest, rfl⟩ := error_of_prefix f (List.cons_prefix_cons.1 h).2
    exact ⟨hys, a :: as, rest, rfl⟩

end

/-! ## A watch in its world -/

/-- What a step of a watch finds its feed to have, if it opens it; a failure to open it is all there is. -/
def Sim.WatchJob.opens? (h : WorldEnv) (j : WatchJob) (w : World) : Option (List (Outcome Batch) × Bool) :=
  match j.forwarder.phase, j.forwarder.cancelled with
  | .opening, false =>
    let (p, w) := j.opening.advance h w
    p.result?.map fun
      | .ok id => (w.backend.store.pending id, w.backend.store.isOver id)
      | .error e => ([.error e], true)
  | _, _ => none

structure Watching where
  world : World
  job : WatchJob
  /-- All that the feed ever had. -/
  told : List (Outcome Batch)
  /-- No more comes to the feed. -/
  ended : Bool
  received : List (Outcome Changes)

namespace Watching

def start (c : Client) (r : WatchRequest) (w : World) : Watching := ⟨w, .start c r, [], false, []⟩

inductive Act
  /-- Others change the world, and `more` comes to the feed. -/
  | other (w : World) (more : List (Outcome Batch))
  | work
  | take
  | cancel
  | abandon

/-- Others only add to the feed, until it is over, and nothing to one that is not open. -/
def Allows (x : Watching) : Act → Prop
  | .other w more =>
    match x.job.feed with
    | none => more = []
    | some id => w.backend.store.pending id = x.world.backend.store.pending id ++ more ∧
        (x.world.backend.store.isOver id = true → more = [] ∧ w.backend.store.isOver id = true)
  | _ => True

def act (h : WorldEnv) (x : Watching) : Act → Watching
  | .other w more =>
    ⟨w, x.job, x.told ++ more, (x.job.feed.map w.backend.store.isOver).getD x.ended, x.received⟩
  | .work =>
    match x.job.step? h x.world with
    | none => x
    | some (j, w) =>
      let (told, ended) := (x.job.opens? h x.world).getD (x.told, x.ended)
      ⟨w, j, told, ended, x.received⟩
  | .take =>
    match x.job.take with
    | (.item y, j) => { x with job := j, received := x.received ++ [y] }
    | _ => x
  | .cancel => { x with job := x.job.cancel }
  | .abandon => { x with job := x.job.abandon }

inductive Leads (h : WorldEnv) : Watching → Watching → Prop
  | refl (x : Watching) : Leads h x x
  | act {x y : Watching} (hx : Leads h x y) (a : Act) (ha : y.Allows a) : Leads h x (y.act h a)

/-- All that ever was in the channel. -/
def entered (x : Watching) : List (Outcome Changes) := x.received ++ x.job.forwarder.out.items

/-! ## What holds at any time -/

variable {h : WorldEnv} {trim : Option String} {x y : Watching} {b : Batch} {rest : List (Outcome Batch)}

/-- All has entered the channel but `rest`. -/
def Leaves (trim : Option String) (x : Watching) (rest : List (Outcome Batch)) : Prop :=
  ∃ bs : List Batch, x.told = bs.map .ok ++ rest ∧
    x.entered = (bs.map .ok).map (Except.map (Changes.ofBatch trim))

/-- All that there is to tell has entered the channel, and there will be no more. -/
def Whole (trim : Option String) (x : Watching) : Prop :=
  x.entered = (toFailure x.told).map (Except.map (Changes.ofBatch trim)) ∧
    (x.ended = true ∨ ∃ e, .error e ∈ x.told)

/-- The feed is open and has `rest`. -/
def Has (x : Watching) (rest : List (Outcome Batch)) : Prop :=
  ∃ id, x.job.feed = some id ∧ x.world.backend.store.pending id = rest ∧ x.ended = x.world.backend.store.isOver id

/-- How far a watch is in a phase. -/
inductive Stands (trim : Option String) (x : Watching) : Phase (Outcome Changes) → Prop
  | opening (hf : x.job.feed = none) (ht : x.told = []) (hl : x.Leaves trim []) : Stands trim x .opening
  | listening {rest : List (Outcome Batch)} (hr : x.Has rest) (hl : x.Leaves trim rest) : Stands trim x .listening
  | telling {b : Batch} {rest : List (Outcome Batch)} (hr : x.Has rest) (hl : x.Leaves trim (.ok b :: rest)) :
      Stands trim x (.delivering (.ok (.ofBatch trim b)) false)
  | failing {e : Failure} {rest : List (Outcome Batch)} (hl : x.Leaves trim (.error e :: rest)) :
      Stands trim x (.delivering (.error e) true)
  | stopped (hf : x.job.feed = none)
      (hp : x.entered <+: (toFailure x.told).map (Except.map (Changes.ofBatch trim)))
      (he : x.job.forwarder.cancelled = true ∨ x.job.forwarder.out.abandoned = true ∨ x.Whole trim) :
      Stands trim x .stopped

structure Forwards (trim : Option String) (x : Watching) : Prop where
  stands : x.Stands trim x.job.forwarder.phase
  trim : x.job.forwarder.trim = trim
  capacity : x.job.forwarder.out.capacity = watchCapacity
  room : x.job.forwarder.out.items.length ≤ watchCapacity
  closed : x.job.forwarder.out.closed = x.job.forwarder.isStopped

theorem allows_own {a : Act} (ha : ∀ w more, a ≠ .other w more) : x.Allows a := by
  cases a with
  | other w more => exact absurd rfl (ha w more)
  | _ => trivial

theorem Leaves.initial (hx : x.Leaves trim rest) :
    x.entered <+: (toFailure x.told).map (Except.map (Changes.ofBatch trim)) := by
  obtain ⟨bs, htold, hin⟩ := hx
  rw [htold, toFailure_append, List.map_append, hin]
  exact List.prefix_append _ _

theorem Leaves.nil (hx : x.Leaves trim rest) (ht : x.told = []) : x.entered = [] := by
  obtain ⟨bs, htold, hin⟩ := hx
  obtain ⟨hbs, _⟩ := List.append_eq_nil_iff.1 (htold.symm.trans ht)
  rw [hin, hbs]
  rfl

theorem Leaves.more (hx : x.Leaves trim rest) {more : List (Outcome Batch)} (ht : y.told = x.told ++ more)
    (hy : y.entered = x.entered) : y.Leaves trim (rest ++ more) := by
  obtain ⟨bs, htold, hin⟩ := hx
  exact ⟨bs, by rw [ht, htold, List.append_assoc], by rw [hy, hin]⟩

theorem Forwards.initial (hx : x.Forwards trim) :
    x.entered <+: (toFailure x.told).map (Except.map (Changes.ofBatch trim)) := by
  have hs := hx.stands
  generalize x.job.forwarder.phase = p at hs
  cases hs with
  | opening _ _ hl | listening _ hl | telling _ hl | failing hl => exact hl.initial
  | stopped _ hp _ => exact hp

theorem Forwards.unclosed (hx : x.Forwards trim) (hp : x.job.forwarder.phase ≠ .stopped) :
    x.job.forwarder.out.closed = false := by
  rw [hx.closed]
  exact Bool.eq_false_iff.2 (hp ∘ Forwarder.isStopped_iff.1)

theorem forwards_start (c : Client) (r : WatchRequest) (w : World) : (start c r w).Forwards r.trim? where
  stands := .opening rfl rfl ⟨[], rfl, rfl⟩
  trim := rfl
  capacity := rfl
  room := Nat.zero_le _
  closed := rfl

/-! ## Acts on a watch -/

theorem Forwards.other (hx : x.Forwards trim) {w : World} {more : List (Outcome Batch)}
    (ha : x.Allows (.other w more)) : (x.act h (.other w more)).Forwards trim := by
  refine { hx with stands := ?_ }
  have unfed : x.job.feed = none → more = [] := by
    intro hf
    rw [Allows, hf] at ha
    exact ha
  have leaves : ∀ {rest}, x.Leaves trim rest → (x.act h (.other w more)).Leaves trim (rest ++ more) :=
    fun hl => hl.more rfl rfl
  have has : ∀ {rest}, x.Has rest → (x.act h (.other w more)).Has (rest ++ more) := by
    intro rest hr
    obtain ⟨id, hf, hq, _⟩ := hr
    rw [Allows, hf] at ha
    exact ⟨id, hf, by rw [← hq]; exact ha.1, by simp [act, hf]⟩
  have hs := hx.stands
  show Stands trim _ x.job.forwarder.phase
  generalize x.job.forwarder.phase = p at hs
  cases hs with
  | opening hf ht hl =>
    have hmore := unfed hf
    subst hmore
    exact .opening hf (by simpa [act] using ht) (leaves hl)
  | listening hr hl => exact .listening (has hr) (leaves hl)
  | telling hr hl => exact .telling (has hr) (leaves hl)
  | failing hl => exact .failing (leaves hl)
  | stopped hf hp he =>
    have hmore := unfed hf
    subst hmore
    have htold : x.told ++ [] = x.told := List.append_nil _
    refine .stopped hf ?_ (he.imp_right (Or.imp_right fun hw => ?_))
    · show x.entered <+: (toFailure (x.told ++ [])).map _
      rwa [htold]
    · refine ⟨?_, ?_⟩
      · show x.entered = (toFailure (x.told ++ [])).map _
        rw [htold]
        exact hw.1
      · simpa [act, hf] using hw.2

theorem Stands.same {p : Phase (Outcome Changes)} (hs : x.Stands trim p) (hf : y.job.feed = x.job.feed)
    (hw : y.world = x.world) (ht : y.told = x.told) (ho : y.ended = x.ended) (hin : y.entered = x.entered)
    (hc : x.job.forwarder.cancelled = true → y.job.forwarder.cancelled = true)
    (ha : x.job.forwarder.out.abandoned = true → y.job.forwarder.out.abandoned = true) : y.Stands trim p := by
  have leaves : ∀ {rest}, x.Leaves trim rest → y.Leaves trim rest := by
    intro rest hl
    unfold Leaves
    rwa [ht, hin]
  have has : ∀ {rest}, x.Has rest → y.Has rest := by
    intro rest hr
    unfold Has
    rwa [hf, hw, ho]
  cases hs with
  | opening hf' ht' hl => exact .opening (hf.trans hf') (ht.trans ht') (leaves hl)
  | listening hr hl => exact .listening (has hr) (leaves hl)
  | telling hr hl => exact .telling (has hr) (leaves hl)
  | failing hl => exact .failing (leaves hl)
  | stopped hf' hp he =>
    refine .stopped (hf.trans hf') (by rwa [hin, ht]) (he.imp hc (Or.imp ha fun hwhole => ?_))
    unfold Whole
    rwa [hin, ht, ho]

theorem Forwards.cancel (hx : x.Forwards trim) : (x.act h .cancel).Forwards trim :=
  { hx with stands := hx.stands.same rfl rfl rfl rfl rfl (fun _ => rfl) id }

theorem Forwards.abandon (hx : x.Forwards trim) : (x.act h .abandon).Forwards trim :=
  { hx with stands := hx.stands.same rfl rfl rfl rfl rfl id fun _ => rfl }

theorem act_take_of_items {c : Outcome Changes} {items : List (Outcome Changes)}
    (hi : x.job.forwarder.out.items = c :: items) : x.act h .take = { x with
      job := { x.job with forwarder := { x.job.forwarder with out := { x.job.forwarder.out with items } } }
      received := x.received ++ [c] } := by
  simp only [act, WatchJob.take, Channel.take, hi]

theorem act_take (h : WorldEnv) (x : Watching) : x.act h .take = x ∨
    ∃ c items, x.job.forwarder.out.items = c :: items ∧ x.act h .take = { x with
      job := { x.job with forwarder := { x.job.forwarder with out := { x.job.forwarder.out with items } } }
      received := x.received ++ [c] } := by
  cases hi : x.job.forwarder.out.items with
  | nil =>
    left
    simp only [act, WatchJob.take, Channel.take, hi]
    cases x.job.forwarder.out.closed <;> rfl
  | cons c items => exact .inr ⟨c, items, rfl, act_take_of_items hi⟩

theorem Forwards.take (hx : x.Forwards trim) : (x.act h .take).Forwards trim := by
  rcases x.act_take h with he | ⟨c, items, hi, he⟩
  · rwa [he]
  · have hroom := hx.room
    rw [hi, List.length_cons] at hroom
    rw [he]
    refine { hx with room := Nat.le_of_succ_le hroom, stands := hx.stands.same rfl rfl rfl rfl ?_ id id }
    simp [entered, hi]

/-! ## The work of a watch -/

theorem Leaves.sent (hx : x.Leaves trim (.ok b :: rest)) (ht : y.told = x.told)
    (hin : y.entered = x.entered ++ [.ok (.ofBatch trim b)]) : y.Leaves trim rest := by
  obtain ⟨bs, htold, hbs⟩ := hx
  refine ⟨bs ++ [b], ?_, ?_⟩
  · rw [ht, htold, List.map_append, List.append_assoc]
    rfl
  · rw [hin, hbs, List.map_append, List.map_append]
    rfl

theorem Leaves.whole (hx : x.Leaves trim []) (ho : x.ended = true) : x.Whole trim := by
  obtain ⟨bs, htold, hbs⟩ := hx
  rw [List.append_nil] at htold
  refine ⟨?_, .inl ho⟩
  rw [htold, toFailure_map_ok, hbs]

theorem Leaves.whole_of_error {e : Failure} (hx : x.Leaves trim (.error e :: rest)) (ht : y.told = x.told)
    (hin : y.entered = x.entered ++ [.error e]) : y.Whole trim := by
  obtain ⟨bs, htold, hbs⟩ := hx
  have hy : y.told = bs.map .ok ++ .error e :: rest := ht.trans htold
  refine ⟨?_, .inr ⟨e, hy ▸ List.mem_append_right _ List.mem_cons_self⟩⟩
  rw [hin, hbs, hy, toFailure_append, List.map_append]
  rfl

theorem Forwards.stopped (hx : x.Forwards trim) (w : World)
    (he : x.job.forwarder.cancelled = true ∨ x.job.forwarder.out.abandoned = true ∨ x.Whole trim) :
    Forwards trim ⟨w, x.job.stopped, x.told, x.ended, x.received⟩ where
  stands := .stopped rfl hx.initial he
  trim := hx.trim
  capacity := hx.capacity
  room := hx.room
  closed := rfl

section
variable {w : World} {id : FeedId} {c : Outcome Changes}

theorem Forwards.opens (hx : x.Forwards trim) (hp : x.job.forwarder.phase = .opening) (w : World) (id : FeedId) :
    Forwards trim ⟨w, { x.job with feed := some id, forwarder := x.job.forwarder.opened (.ok ()) },
      w.backend.store.pending id, w.backend.store.isOver id, x.received⟩ := by
  have hs := hx.stands
  rw [hp] at hs
  cases hs with
  | opening _ ht hl =>
    exact { hx with
      stands := .listening ⟨id, rfl, rfl, rfl⟩ ⟨[], rfl, hl.nil ht⟩, closed := hx.unclosed (hp ▸ nofun) }

theorem Forwards.refused (hx : x.Forwards trim) (hp : x.job.forwarder.phase = .opening) (w : World) (e : Failure) :
    Forwards trim ⟨w, { x.job with forwarder := x.job.forwarder.opened (.error e) }, [.error e], true, x.received⟩ := by
  have hs := hx.stands
  rw [hp] at hs
  cases hs with
  | opening _ ht hl =>
    exact { hx with stands := .failing ⟨[], rfl, hl.nil ht⟩, closed := hx.unclosed (hp ▸ nofun) }

theorem Forwards.hears (hx : x.Forwards trim) (hp : x.job.forwarder.phase = .listening) (hf : x.job.feed = some id)
    {z : Outcome Batch} (ht : x.world.takeNext id = (.item z, w)) :
    Forwards trim ⟨w, { x.job with forwarder := x.job.forwarder.heard (.item z) }, x.told, x.ended, x.received⟩ := by
  have hs := hx.stands
  rw [hp] at hs
  cases hs with
  | listening hr hl =>
    obtain ⟨id', hf', hq, ho⟩ := hr
    cases hf.symm.trans hf'
    have hspec := x.world.backend.store.takeNext_spec id
    have hz : (x.world.backend.store.takeNext id).1 = .item z := congrArg (·.1) ht
    have hw : w.backend.store = (x.world.backend.store.takeNext id).2 := congrArg (·.2.backend.store) ht.symm
    rw [hz, ← hw] at hspec
    obtain ⟨hpending, hover⟩ := hspec
    rw [← hq, hpending] at hl
    cases z with
    | ok b =>
      obtain rfl := hx.trim
      exact { hx with
        stands := .telling ⟨id, hf, rfl, ho.trans hover.symm⟩ hl, closed := hx.unclosed (hp ▸ nofun) }
    | error e => exact { hx with stands := .failing hl, closed := hx.unclosed (hp ▸ nofun) }

theorem Forwards.ends (hx : x.Forwards trim) (hp : x.job.forwarder.phase = .listening) (hf : x.job.feed = some id)
    (ht : (x.world.takeNext id).1 = .ended) (w : World) :
    Forwards trim ⟨w, x.job.stopped, x.told, x.ended, x.received⟩ := by
  have hs := hx.stands
  rw [hp] at hs
  cases hs with
  | listening hr hl =>
    obtain ⟨id', hf', hq, ho⟩ := hr
    cases hf.symm.trans hf'
    have hspec := x.world.backend.store.takeNext_spec id
    have hz : (x.world.backend.store.takeNext id).1 = .ended := ht
    rw [hz] at hspec
    rw [← hq, hspec.1] at hl
    exact hx.stopped w (.inr (.inr (hl.whole (ho.trans hspec.2))))

theorem Forwards.sends (hx : x.Forwards trim) (hp : x.job.forwarder.phase = .delivering c false)
    (hr : x.job.forwarder.out.isFull = false) :
    Forwards trim { x with job := { x.job with
      forwarder := { x.job.forwarder with phase := .listening, out := x.job.forwarder.out.send c } } } := by
  have hs := hx.stands
  rw [hp] at hs
  cases hs with
  | telling hh hl =>
    exact { hx with
      stands := .listening hh (hl.sent rfl (List.append_assoc ..).symm)
      room := hx.capacity ▸ Channel.length_send_le hr _
      closed := hx.unclosed (hp ▸ nofun) }

theorem Forwards.sendsLast (hx : x.Forwards trim) (hp : x.job.forwarder.phase = .delivering c true)
    (hr : x.job.forwarder.out.isFull = false) (w : World) :
    Forwards trim ⟨w, Sim.WatchJob.stopped { x.job with
      forwarder := { x.job.forwarder with phase := .listening, out := x.job.forwarder.out.send c } },
      x.told, x.ended, x.received⟩ := by
  have hs := hx.stands
  rw [hp] at hs
  cases hs with
  | @failing e rest hl =>
    have hwhole := hl.whole_of_error (y := ⟨w, Sim.WatchJob.stopped { x.job with
      forwarder := { x.job.forwarder with phase := .listening, out := x.job.forwarder.out.send (.error e) } },
      x.told, x.ended, x.received⟩) rfl (List.append_assoc ..).symm
    exact {
      stands := .stopped rfl (hwhole.1 ▸ List.prefix_rfl) (.inr (.inr hwhole))
      trim := hx.trim
      capacity := hx.capacity
      room := hx.capacity ▸ Channel.length_send_le hr _
      closed := rfl }

end

section
variable {j : WatchJob} {w : World}

theorem act_work (hs : x.job.step? h x.world = some (j, w)) (ho : x.job.opens? h x.world = none) :
    x.act h .work = ⟨w, j, x.told, x.ended, x.received⟩ := by
  simp only [act, hs, ho, Option.getD_none]

theorem act_work_of_opens {told : List (Outcome Batch)} {ended : Bool} (hs : x.job.step? h x.world = some (j, w))
    (ho : x.job.opens? h x.world = some (told, ended)) : x.act h .work = ⟨w, j, told, ended, x.received⟩ := by
  simp only [act, hs, ho, Option.getD_some]

theorem opens?_of_cancelled (hc : x.job.forwarder.cancelled = true) : x.job.opens? h x.world = none := by
  unfold Sim.WatchJob.opens?
  rw [hc]
  cases x.job.forwarder.phase <;> rfl

theorem opens?_of_open (hp : x.job.forwarder.phase ≠ .opening) : x.job.opens? h x.world = none := by
  unfold Sim.WatchJob.opens?
  cases hq : x.job.forwarder.phase with
  | opening => exact absurd hq hp
  | _ => rfl

theorem opens?_of_opening (hp : x.job.forwarder.phase = .opening) (hc : x.job.forwarder.cancelled = false)
    {p : Sim.WorldProg (Outcome FeedId)} (ha : x.job.opening.advance h x.world = (p, w)) :
    x.job.opens? h x.world = p.result?.map fun
      | .ok id => (w.backend.store.pending id, w.backend.store.isOver id)
      | .error e => ([.error e], true) := by
  simp only [Sim.WatchJob.opens?, hp, hc, ha]

theorem Forwards.step (hx : x.Forwards trim) (hs : x.job.step? h x.world = some (j, w)) :
    (x.act h .work).Forwards trim := by
  rcases Sim.WatchJob.steps_of_step? hs with ⟨hc, rfl, rfl⟩ | ⟨hc, hsteps⟩
  · rw [act_work hs (opens?_of_cancelled hc)]
    exact hx.stopped _ (.inl hc)
  cases hsteps with
  | waits hp ha hr =>
    rw [act_work hs (by rw [opens?_of_opening hp hc ha, hr]; rfl)]
    have hstands := hx.stands
    rw [hp] at hstands
    cases hstands with
    | opening hf ht hl => exact { hx with stands := hp ▸ .opening hf ht hl }
  | opens hp ha hr =>
    rw [act_work_of_opens hs (by rw [opens?_of_opening hp hc ha, hr]; rfl)]
    exact hx.opens hp _ _
  | refused hp ha hr =>
    rw [act_work_of_opens hs (by rw [opens?_of_opening hp hc ha, hr]; rfl)]
    exact hx.refused hp _ _
  | hears hp hf ht =>
    rw [act_work hs (opens?_of_open (hp ▸ nofun))]
    exact hx.hears hp hf ht
  | ends hp hf ht =>
    rw [act_work hs (opens?_of_open (hp ▸ nofun))]
    exact hx.ends hp hf (congrArg (·.1) ht) _
  | leaves hp ha =>
    rw [act_work hs (opens?_of_open (hp ▸ nofun))]
    exact hx.stopped _ (.inr (.inl ha))
  | sends hp hr =>
    rw [act_work hs (opens?_of_open (hp ▸ nofun))]
    exact hx.sends hp hr
  | sendsLast hp hr =>
    rw [act_work hs (opens?_of_open (hp ▸ nofun))]
    exact hx.sendsLast hp hr _

end

theorem Forwards.work (hx : x.Forwards trim) : (x.act h .work).Forwards trim := by
  cases hs : x.job.step? h x.world with
  | none =>
    simp only [act, hs]
    exact hx
  | some out => exact hx.step hs

theorem Forwards.act (hx : x.Forwards trim) {a : Act} (ha : x.Allows a) : (x.act h a).Forwards trim := by
  cases a with
  | other w more => exact hx.other ha
  | work => exact hx.work
  | take => exact hx.take
  | cancel => exact hx.cancel
  | abandon => exact hx.abandon

theorem Forwards.leads (hx : x.Forwards trim) (hy : Leads h x y) : y.Forwards trim := by
  induction hy with
  | refl => exact hx
  | act _ a ha ih => exact ih.act ha

/-! ## Blocked and cancelled watches -/

theorem Leaves.all (hx : x.Leaves trim []) : x.entered = x.told.map (Except.map (Changes.ofBatch trim)) := by
  obtain ⟨bs, htold, hbs⟩ := hx
  rw [List.append_nil] at htold
  rw [hbs, htold]

/-- A watch stands still only when it is done, still opens, has no room, or has told all. -/
theorem Forwards.blocked (hx : x.Forwards trim) (hs : x.job.step? h x.world = none) :
    x.job.forwarder.isStopped = true ∨
      (x.job.forwarder.phase = .opening ∧ x.job.opening.isReady h x.world = false) ∨
      x.job.forwarder.out.isFull = true ∨
      x.entered = x.told.map (Except.map (Changes.ofBatch trim)) ∧ x.ended = false := by
  rcases Sim.WatchJob.blocked_of_step? hs with hstop | hopen | hfull | ⟨hp, hempty⟩
  · exact .inl hstop
  · exact .inr (.inl hopen)
  · exact .inr (.inr (.inl hfull))
  · have hstands := hx.stands
    rw [hp] at hstands
    cases hstands with
    | listening hr hl =>
      obtain ⟨id, hf, hq, ho⟩ := hr
      have hspec := x.world.backend.store.takeNext_spec id
      have hz : (x.world.backend.store.takeNext id).1 = .empty := hempty id hf
      rw [hz] at hspec
      rw [← hq, hspec.1] at hl
      exact .inr (.inr (.inr ⟨hl.all, ho.trans hspec.2⟩))

theorem act_of_cancelled (hc : x.job.forwarder.cancelled = true) (a : Act) :
    (x.act h a).job.forwarder.cancelled = true ∧ (x.act h a).entered = x.entered := by
  cases a with
  | other | abandon => exact ⟨hc, rfl⟩
  | cancel => exact ⟨rfl, rfl⟩
  | take =>
    rcases x.act_take h with he | ⟨c, items, hi, he⟩
    · rw [he]
      exact ⟨hc, rfl⟩
    · rw [he]
      exact ⟨hc, by simp [entered, hi]⟩
  | work =>
    cases hs : x.job.step? h x.world with
    | none =>
      simp only [act, hs]
      exact ⟨hc, trivial⟩
    | some out =>
      obtain ⟨j, w⟩ := out
      rcases Sim.WatchJob.steps_of_step? hs with ⟨_, rfl, _⟩ | ⟨hn, _⟩
      · rw [act_work hs (opens?_of_cancelled hc)]
        exact ⟨hc, rfl⟩
      · cases hn.symm.trans hc

theorem Leads.entered (hy : Leads h x y) (hc : x.job.forwarder.cancelled = true) :
    y.job.forwarder.cancelled = true ∧ y.entered = x.entered := by
  induction hy with
  | refl => exact ⟨hc, rfl⟩
  | act _ a _ ih =>
    obtain ⟨hc', he⟩ := act_of_cancelled ih.1 a
    exact ⟨hc', he.trans ih.2⟩

theorem work_of_cancelled (hc : x.job.forwarder.cancelled = true) (hf : x.job.feed = none) :
    (x.act h .work).world = x.world ∧ (x.act h .work).job.feed = none := by
  cases hs : x.job.step? h x.world with
  | none =>
    simp only [act, hs]
    exact ⟨trivial, hf⟩
  | some out =>
    obtain ⟨j, w⟩ := out
    rcases Sim.WatchJob.steps_of_step? hs with ⟨_, rfl, rfl⟩ | ⟨hn, _⟩
    · rw [act_work hs (opens?_of_cancelled hc), hf]
      exact ⟨rfl, rfl⟩
    · cases hn.symm.trans hc

/-- Cancelled before it has a feed, a watch does nothing to the world. -/
theorem Leads.idle (hy : Leads h x y) (hc : x.job.forwarder.cancelled = true) (hf : x.job.feed = none) :
    y.job.feed = none ∧ (y.act h .work).world = y.world := by
  have hfeed : y.job.feed = none := by
    induction hy with
    | refl => exact hf
    | act hy a _ ih =>
      cases a with
      | other | cancel | abandon => exact ih
      | work => exact (work_of_cancelled (hy.entered hc).1 ih).2
      | take =>
        rcases act_take h _ with he | ⟨_, _, _, he⟩
        · rw [he]
          exact ih
        · rw [he]
          exact ih
  exact ⟨hfeed, (work_of_cancelled (hy.entered hc).1 hfeed).1⟩

theorem work_frame (h : WorldEnv) (x : Watching) : (x.act h .work).received = x.received ∧
    (x.act h .work).job.forwarder.cancelled = x.job.forwarder.cancelled ∧
    (x.act h .work).job.forwarder.out.abandoned = x.job.forwarder.out.abandoned := by
  cases hs : x.job.step? h x.world with
  | none =>
    simp only [act, hs]
    exact ⟨trivial, trivial, trivial⟩
  | some out =>
    obtain ⟨j, w⟩ := out
    simp only [act, hs]
    rcases Sim.WatchJob.steps_of_step? hs with ⟨_, rfl, _⟩ | ⟨_, hsteps⟩
    · exact ⟨trivial, rfl, rfl⟩
    · cases hsteps with
      | @hears _ _ z => cases z <;> exact ⟨trivial, rfl, rfl⟩
      | _ => exact ⟨trivial, rfl, rfl⟩

/-- Once a watch has stopped, nothing is told and nothing enters its channel. -/
theorem Forwards.act_of_stopped (hx : x.Forwards trim) (hp : x.job.forwarder.phase = .stopped) {a : Act}
    (ha : x.Allows a) : (x.act h a).job.forwarder.phase = .stopped ∧ (x.act h a).told = x.told ∧
      (x.act h a).ended = x.ended ∧ (x.act h a).entered = x.entered := by
  have hs := hx.stands
  rw [hp] at hs
  cases hs with
  | stopped hf _ _ =>
    cases a with
    | other w more =>
      have hmore : more = [] := by
        rw [Allows, hf] at ha
        exact ha
      exact ⟨hp, by simp [Watching.act, hmore], by simp [Watching.act, hf], rfl⟩
    | work =>
      have hs : x.job.step? h x.world = none := by
        unfold WatchJob.step?
        rw [if_pos (Forwarder.isStopped_iff.2 hp)]
      simp only [Watching.act, hs]
      exact ⟨hp, trivial, trivial, trivial⟩
    | take =>
      rcases x.act_take h with he | ⟨c, items, hi, he⟩
      · rw [he]
        exact ⟨hp, rfl, rfl, rfl⟩
      · rw [he]
        exact ⟨hp, rfl, rfl, by simp [Watching.entered, hi]⟩
    | cancel | abandon => exact ⟨hp, rfl, rfl, rfl⟩

end Watching

end Keyspace
