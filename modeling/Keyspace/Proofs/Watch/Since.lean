import Keyspace.Proofs.Store.Succession
import Keyspace.Proofs.Watch.Collapse
import Keyspace.Proofs.Watch.Flow
import Keyspace.Proofs.Watch.Relaying

/-!
# How old the changes are that a watch reports

The start of a watch counts for what is in the log when it is opened, and not for what is committed after.
So every batch that it is told is as late as the start or as the next revision then, whichever is the earlier, and
so is every entry that comes of it (`watched_since`). A start ahead of the store is passed over
(`start_ahead_passed_over`).
-/

namespace Keyspace

open Sim (World WatchJob)

/-! ## Stamped batches -/

/-- The records of a batch have its revision. -/
def Batch.Stamped (b : Batch) : Prop := ∀ e ∈ b.events, e.record.modRevision = b.revision

theorem Batch.Stamped.within? {b d : Batch} {span : Span} (h : b.Stamped) (hd : b.within? span = some d) :
    d.Stamped := by
  rcases b.within?_cases span with ⟨hn, _⟩ | hs
  · cases hn.symm.trans hd
  · cases hs.symm.trans hd
    exact fun e he => h e (List.mem_filter.1 he).1

/-- The way from `s` to `s'`, on which the batches `bs` were committed, each stamped. -/
structure Store.Stamps (s : Store) (bs : List Batch) (s' : Store) : Prop where
  advances : s.Advances bs s'
  stamped : ∀ b ∈ bs, b.Stamped

theorem Store.way_stamps : Way Stamps where
  trans h h' := ⟨h.advances.trans h'.advances, fun b hb => (List.mem_append.1 hb).elim (h.stamped b) (h'.stamped b)⟩
  silent h := by
    obtain ⟨_, bs, ha, hb⟩ := h
    exact ⟨bs, ha, fun b hm e he => (hb b hm e he).elim⟩
  commit {s} hs ops := by
    have hstands := hs.stands_applyAll ops
    refine ⟨hstands.advances hs, fun b hb => ?_⟩
    unfold Edit.batches at hb
    split at hb
    · cases hb
    · cases List.mem_singleton.1 hb
      exact hstands.stamped

theorem Store.Stamps.log {s s' : Store} {bs : List Batch} (h : s.Stamps bs s') (hs : ∀ b ∈ s.log, b.Stamped) :
    ∀ b ∈ s'.log, b.Stamped := by
  intro b hb
  rw [h.advances.log] at hb
  exact (List.mem_append.1 (List.mem_filter.1 hb).1).elim (hs b) (h.stamped b)

namespace Backend

variable {b : Backend}

theorem stamps_move (h : b.store.Sound) (now : Nat) (m : Move) :
    b.store.Stamps (b.store.since (b.move now m).store) (b.move now m).store := by
  obtain ⟨bs, hs⟩ := Store.way_stamps.move h now m
  rwa [since_of_advances h hs.advances]

theorem Reached.stamped (h : b.Reached) : ∀ c ∈ b.store.log, c.Stamped := by
  induction h with
  | ofMembers names => exact nofun
  | move h now m ih => exact (stamps_move h.sound now m).log ih

end Backend

/-! ## Feeds without older batches -/

/-- The batches among the items, and the records in them, are of `low` or later. -/
def NoOlder (low : Int) (items : List (Outcome Batch)) : Prop :=
  ∀ b, .ok b ∈ items → low ≤ b.revision ∧ b.Stamped

theorem NoOlder.append {low : Int} {l l' : List (Outcome Batch)} (h : NoOlder low l) (h' : NoOlder low l') :
    NoOlder low (l ++ l') := fun b hb => (List.mem_append.1 hb).elim (h b) (h' b)

theorem NoOlder.subset {low : Int} {l l' : List (Outcome Batch)} (h : NoOlder low l) (hl : l' ⊆ l) :
    NoOlder low l' := fun b hb => h b (hl hb)

theorem NoOlder.mono {low low' : Int} {l : List (Outcome Batch)} (h : NoOlder low l) (hl : low' ≤ low) :
    NoOlder low' l := fun b hb => ⟨Int.le_trans hl (h b hb).1, (h b hb).2⟩

theorem NoOlder.within {low : Int} {bs : List Batch} (h : ∀ b ∈ bs, low ≤ b.revision ∧ b.Stamped) (span : Span) :
    NoOlder low ((bs.filterMap (·.within? span)).map .ok) := by
  intro b hb
  obtain ⟨c, hc, he⟩ := List.mem_map.1 hb
  cases he
  obtain ⟨d, hd, hw⟩ := List.mem_filterMap.1 hc
  rw [Batch.revision_of_within? hw]
  exact ⟨(h d hd).1, (h d hd).2.within? hw⟩

/-- What comes of a batch has entries as late as the batch. -/
theorem NoOlder.upserts {low : Int} {told : List (Outcome Batch)} (h : NoOlder low told) {b : Batch} (hb : .ok b ∈ told)
    {trim : Option String} {t : String} {x : Entry} (hx : (Changes.ofBatch trim b).upserts.get? t = some x) :
    low ≤ x.modRevision := by
  obtain ⟨e, he, -, rfl⟩ := ((Changes.Sums.ofBatch trim b).upserts t x).1 hx
  have hmem : e ∈ b.events := (List.mem_filter.1 (List.mem_of_getLast? he)).1
  have hmod : (Changes.entryOf trim e).modRevision = e.record.modRevision := by cases trim <;> rfl
  rw [hmod, (h b hb).2 e hmem]
  exact (h b hb).1

namespace Store

variable {s : Store} {id : FeedId} {low : Int}

/-- A feed that was opened, with no older batch in it. -/
structure Brings (s : Store) (low : Int) (id : FeedId) : Prop where
  old : id < s.nextFeed
  queued : NoOlder low (s.pending id)

theorem pending_of_feed? {f : Feed} (h : s.feed? id = some f) : s.pending id = f.queue := by
  rw [pending, h]
  rfl

theorem noOlder_dueAt (hs : ∀ b ∈ s.log, b.Stamped) (span : Span) (start : Int) :
    NoOlder start (s.dueAt span start) := by
  unfold dueAt
  split
  · refine .within (fun b hb => ?_) span
    obtain ⟨hlog, hle⟩ := List.mem_filter.1 hb
    exact ⟨of_decide_eq_true hle, hs b hlog⟩
  · intro b hb
    cases List.mem_singleton.1 hb

end Store

/-- What others may rely on when a feed is opened or told of a commit. -/
structure Store.Stage (low : Int) (s : Store) : Prop where
  sound : s.Sound
  unused : s.Unused
  stamped : ∀ b ∈ s.log, b.Stamped
  later : low ≤ s.revision + 1

theorem Store.Stage.onlyFeeds {low : Int} {s s' : Store} (h : s.Stage low) (ho : s.OnlyFeeds s') : s'.Stage low where
  sound := by
    obtain ⟨feeds, rfl, _⟩ := ho
    have hl : s.Leads (fun _ => True) { s with feeds } := .still h.sound rfl rfl rfl rfl rfl rfl
    exact hl.1
  unused := h.unused.onlyFeeds ho
  stamped := ho.log ▸ h.stamped
  later := ho.revision ▸ h.later

namespace Backend

variable {b b' : Backend} {id : FeedId} {low : Int}

theorem stage_move (h : b.store.Stage low) (now : Nat) (m : Move) : (b.move now m).store.Stage low where
  sound := (leads_move h.sound now m).1
  unused := unused_move h.sound h.unused now m
  stamped := (stamps_move h.sound now m).log h.stamped
  later := by
    have := (leads_move h.sound now m).revision_le
    have := h.later
    omega

theorem nextFeed_move (h : b.store.Sound) (now : Nat) (m : Move) :
    b.store.nextFeed ≤ (b.move now m).store.nextFeed := by
  rcases posts_move h now m with ⟨_, ha⟩ | ⟨revision, rfl⟩ | ⟨feed, hm⟩
  · exact ha.nextFeed
  · obtain ⟨floor, histories, log, he⟩ := b.store.compact_eq revision
    exact Nat.le_of_eq (congrArg Store.nextFeed he).symm
  · obtain ⟨feeds, he, _⟩ := onlyFeeds_of_uses (b := b) hm now
    exact Nat.le_of_eq (congrArg Store.nextFeed he).symm

/-- A feed that is gone does not come back. -/
theorem feed?_move_of_none (h : b.store.Sound) (hf : b.store.feed? id = none) (hold : id < b.store.nextFeed)
    (now : Nat) (m : Move) : (b.move now m).store.feed? id = none := by
  have hnone : ∀ f ∈ b.store.feeds, f.id ≠ id := fun f hm => by simpa using List.find?_eq_none.1 hf f hm
  apply List.find?_eq_none.2
  intro f hm
  rw [decide_eq_true_eq]
  rcases posts_move h now m with ⟨_, ha⟩ | ⟨revision, rfl⟩ | ⟨feed, hu⟩
  · obtain ⟨more, hfeeds, hid, _⟩ := ha.feeds
    rw [hfeeds] at hm
    rcases List.mem_append.1 hm with hm | hm
    · obtain ⟨g, hg, rfl⟩ := List.mem_map.1 hm
      rw [Feed.offerAll_id]
      exact hnone g hg
    · exact Nat.ne_of_gt (Nat.lt_of_lt_of_le hold (hid f hm).1)
  · obtain ⟨floor, histories, log, he⟩ := b.store.compact_eq revision
    have hfeeds : (b.store.compact revision).feeds = b.store.feeds := by rw [he]
    exact hnone f (hfeeds ▸ hm)
  · obtain ⟨feeds, he, hsub⟩ := onlyFeeds_of_uses (b := b) hu now
    rw [he] at hm
    obtain ⟨g, hg, hgid⟩ := List.mem_map.1 (hsub.subset (List.mem_map_of_mem hm))
    exact hgid ▸ hnone g hg

/-- A feed that is there after a move was there before, and has nothing new but news. -/
theorem feed?_of_move (h : b.store.Sound) (hold : id < b.store.nextFeed) {now : Nat} {m : Move} {f' : Feed}
    (hf' : (b.move now m).store.feed? id = some f') : ∃ f, b.store.feed? id = some f ∧ f'.span = f.span ∧
      f'.queue ⊆ f.queue ++ f.news (b.store.since (b.move now m).store) := by
  cases hf : b.store.feed? id with
  | none => cases (feed?_move_of_none h hf hold now m).symm.trans hf'
  | some f =>
    refine ⟨f, rfl, ?_⟩
    by_cases hu : m.Uses id
    · cases m with
      | takeNext feed =>
        cases hu
        obtain ⟨queue, hnext, hq⟩ := (Store.takeNext_eq hf).2
        have hnext : (b.move now (.takeNext id)).store.feed? id = some { f with queue } := hnext
        cases hnext.symm.trans hf'
        exact ⟨rfl, hq ▸ List.subset_append_of_subset_left _ (List.subset_append_right _ _)⟩
      | closeFeed feed =>
        cases hu
        have hnone : (b.store.closeFeed id).feed? id = none := by
          apply List.find?_eq_none.2
          intro g hg
          simpa [Store.closeFeed] using (List.mem_filter.1 hg).2
        cases hnone.symm.trans hf'
      | _ => exact hu.elim
    · cases (feed?_move h now hu hf).symm.trans hf'
      rw [Feed.offerAll_eq]
      exact ⟨rfl, List.Subset.refl _⟩

theorem brings_move (hs : b.store.Stage low) (h : b.store.Brings low id) (now : Nat) (m : Move) :
    (b.move now m).store.Brings low id := by
  refine ⟨Nat.lt_of_lt_of_le h.old (nextFeed_move hs.sound now m), ?_⟩
  cases hf' : (b.move now m).store.feed? id with
  | none =>
    rw [Store.pending, hf']
    exact fun c hc => by cases hc
  | some f' =>
    obtain ⟨f, hf, _, hqueue⟩ := feed?_of_move hs.sound h.old hf'
    have hqueued := h.queued
    rw [Store.pending_of_feed? hf] at hqueued
    rw [Store.pending_of_feed? hf']
    refine (hqueued.append ?_).subset hqueue
    unfold Feed.news
    split
    · refine .within (fun c hc => ?_) _
      have hlt := of_decide_eq_true (List.mem_filter.1 hc).2
      have hlater := hs.later
      exact ⟨by omega, (stamps_move hs.sound now m).stamped c hc⟩
    · exact fun c hc => by cases hc

/-- A feed that is opened at a start has nothing older in it. -/
theorem brings_of_answer (h : b.store.Stage low) {now : Nat} {span : Span} {start : Int}
    (h0 : 0 < start) (ha : b.answer now (.watch span (some start)) = (.ok id, b')) :
    b'.store.Brings start id := by
  obtain ⟨hr, hstore⟩ := store_answer_of_ok (congrArg (·.1) ha)
  rw [ha] at hstore
  have hu' : (b.store.expire now).Unused := h.unused.posts (Store.posts_endAll _ h.sound)
  obtain ⟨bs, hstamps⟩ := Store.way_stamps.endAll (b.store.due now) h.sound
  have hstamped : ∀ c ∈ (b.store.expire now).log, c.Stamped := hstamps.log h.stamped
  have hwatch := (b.store.expire now).watch_eq span h0
  simp only [Store.answer, hwatch] at hr hstore
  cases hr
  rw [hstore]
  refine ⟨Nat.lt_succ_self _, ?_⟩
  have hf := hu'.feed?_addFeed span (decide ((b.store.expire now).floor ≤ start))
    ((b.store.expire now).dueAt span start)
  have hpending := Store.pending_of_feed? hf
  exact hpending ▸ Store.noOlder_dueAt hstamped span start

theorem hears_subset (b : Backend) (id : FeedId) (m : Move) : m.hears b id ⊆ b.store.pending id := by
  cases m with
  | takeNext feed =>
    simp only [Move.hears]
    split
    · have hspec := b.store.takeNext_spec id
      cases hx : (b.store.takeNext id).1 with
      | item x =>
        rw [hx] at hspec
        rw [hspec.1]
        exact List.cons_subset_cons x (List.nil_subset _)
      | empty | ended => exact List.nil_subset _
    · exact List.nil_subset _
  | _ => exact List.nil_subset _

theorem heard_noOlder (l : List (Nat × Move)) : ∀ {b : Backend}, b.store.Stage low → b.store.Brings low id →
    NoOlder low (b.heard id l) := by
  induction l with
  | nil => exact fun _ _ b hb => by cases hb
  | cons m l ih =>
    intro b hs h
    exact (h.queued.subset (hears_subset b id m.2)).append (ih (stage_move hs m.1 m.2) (brings_move hs h m.1 m.2))

end Backend

/-! ## Watches beside other moves -/

def Sim.World.moved (w : World) (now : Nat) (m : Move) : World := { w with now, backend := w.backend.move now m }

namespace Watching

/-- What the feed of the watch has got in a world that others left. -/
def gets (x : Watching) (w : World) : List (Outcome Batch) :=
  (x.job.feed.map fun id =>
    (w.backend.store.pending id).drop (x.world.backend.store.pending id).length).getD []

/-- A run in which others do nothing but move the backend, and leave the feed of the watch alone. -/
inductive Runs : Watching → Watching → Prop
  | refl (x : Watching) : Runs x x
  | move {x y : Watching} (hy : Runs x y) (now : Nat) (m : Move) (hm : ∀ id, y.job.feed = some id → ¬ m.Uses id) :
    Runs x (y.act (World.env true) (.other (y.world.moved now m) (y.gets (y.world.moved now m))))
  | act {x y : Watching} (hy : Runs x y) (a : Act) (ha : ∀ w more, a ≠ .other w more) :
    Runs x (y.act (World.env true) a)

/-- Others add to the feed at its end, and nothing once it is over. -/
theorem allows_moved {x : Watching} (h : x.world.backend.store.Sound)
    (hold : ∀ id, x.job.feed = some id → id < x.world.backend.store.nextFeed) (now : Nat) {m : Move}
    (hm : ∀ id, x.job.feed = some id → ¬ m.Uses id) :
    x.Allows (.other (x.world.moved now m) (x.gets (x.world.moved now m))) := by
  unfold Allows gets
  cases hid : x.job.feed with
  | none => rfl
  | some id =>
    show (x.world.backend.move now m).store.pending id = _ ++ ((x.world.backend.move now m).store.pending id).drop _ ∧
      (_ → ((x.world.backend.move now m).store.pending id).drop _ = [] ∧
        (x.world.backend.move now m).store.isOver id = true)
    cases hf : x.world.backend.store.feed? id with
    | none =>
      have hnone := Backend.feed?_move_of_none h hf (hold id hid) now m
      simp [Store.pending, Store.isOver, hf, hnone]
    | some f =>
      have hf' := Backend.feed?_move h now (hm id hid) hf
      rw [Feed.offerAll_eq] at hf'
      have hover : x.world.backend.store.isOver id = !f.live := by simp [Store.isOver, hf]
      have hover' : (x.world.backend.move now m).store.isOver id = !f.live := by simp [Store.isOver, hf']
      rw [Store.pending_of_feed? hf, Store.pending_of_feed? hf', List.drop_left, hover, hover']
      refine ⟨rfl, fun hl => ⟨?_, hl⟩⟩
      rw [Feed.news, if_neg (by simpa using hl)]

/-- As long as the watch is not open, it tries to be. -/
def Opening (span : Span) (start? : Option Int) (x : Watching) : Prop :=
  x.job.forwarder.phase = .opening → ∃ policy, World.Tries policy (.watch span start?) x.job.opening

theorem opening_start (c : Client) (r : WatchRequest) (w : World) : (start c r w).Opening r.span r.start? :=
  fun _ => ⟨c.policy, c.policy.retries, .inl rfl⟩

/-- What a step of a watch does to the store, to its feed and to what it is told. -/
inductive Goes (span : Span) (start? : Option Int) (x y : Watching) : Prop
  | opens {id : FeedId} {b : Backend} (hb : b.store = x.world.backend.store)
      (ha : b.answer x.world.now (.watch span start?) = (.ok id, y.world.backend)) (hf : y.job.feed = some id)
      (ht : y.told = y.world.backend.store.pending id)
  | refused {e : Failure} (hs : y.world.backend.store = x.world.backend.store) (hf : y.job.feed = x.job.feed)
      (ht : y.told = [.error e])
  | hears {id : FeedId} (hb : y.world.backend = x.world.backend.move 0 (.takeNext id)) (hf : y.job.feed = x.job.feed)
      (ht : y.told = x.told)
  | closes (hs : x.world.backend.store.OnlyFeeds y.world.backend.store) (hf : y.job.feed = none)
      (ht : y.told = x.told)
  | still (hs : y.world.backend.store = x.world.backend.store) (hf : y.job.feed = x.job.feed) (ht : y.told = x.told)

/-- What comes of a step that opens a watch. -/
theorem opening_cases {span : Span} {policy : Retry.Policy} {p p' : Sim.WorldProg (Outcome FeedId)} {w w' : World}
    {start? : Option Int} (h : World.Tries policy (.watch span start?) p)
    (ha : p.advance (World.env true) w = (p', w')) :
    match p'.result? with
    | none => w'.backend.store = w.backend.store ∧ World.Tries policy (.watch span start?) p'
    | some (.ok id) => ∃ b : Backend, b.store = w.backend.store ∧
      b.answer w.now (.watch span start?) = (.ok id, w'.backend)
    | some (.error _) => w'.backend.store = w.backend.store := by
  have hout := h.watch w
  rw [ha] at hout
  rcases hout with ⟨hstore, htry | ⟨e, _, rfl⟩⟩ | ⟨b, id, hstore, hans, rfl⟩
  · have hnone : p'.result? = none := htry.result?
    rw [hnone]
    exact ⟨hstore, htry⟩
  · exact hstore
  · exact ⟨b, hstore, hans⟩

theorem goes_of_step {span : Span} {start? : Option Int} {x : Watching} (ho : x.Opening span start?) {j : WatchJob}
    {w : World} (hs : x.job.step? (World.env true) x.world = some (j, w)) :
    x.Goes span start? (x.act (World.env true) .work) ∧ (x.act (World.env true) .work).Opening span start? := by
  have hrelease := x.world.onlyFeeds_release x.job.feed
  rcases Sim.WatchJob.steps_of_step? hs with ⟨hc, rfl, rfl⟩ | ⟨hc, hsteps⟩
  · rw [act_work hs (opens?_of_cancelled hc)]
    exact ⟨.closes hrelease rfl rfl, nofun⟩
  cases hsteps with
  | waits hp ha hr =>
    rw [act_work hs (by rw [opens?_of_opening hp hc ha, hr]; rfl)]
    obtain ⟨policy, htries⟩ := ho hp
    have hout := opening_cases htries ha
    rw [hr] at hout
    exact ⟨.still hout.1 rfl rfl, fun _ => ⟨policy, hout.2⟩⟩
  | opens hp ha hr =>
    rw [act_work_of_opens hs (by rw [opens?_of_opening hp hc ha, hr]; rfl)]
    obtain ⟨policy, htries⟩ := ho hp
    have hout := opening_cases htries ha
    rw [hr] at hout
    obtain ⟨b, hstore, hans⟩ := hout
    exact ⟨.opens hstore hans rfl rfl, nofun⟩
  | refused hp ha hr =>
    rw [act_work_of_opens hs (by rw [opens?_of_opening hp hc ha, hr]; rfl)]
    obtain ⟨policy, htries⟩ := ho hp
    have hout := opening_cases htries ha
    rw [hr] at hout
    exact ⟨.refused hout rfl rfl, nofun⟩
  | @hears _ id z hp hf ht =>
    rw [act_work hs (opens?_of_open fun h => by cases hp.symm.trans h)]
    refine ⟨.hears (congrArg (·.2.backend) ht.symm) rfl rfl, ?_⟩
    cases z <;> exact nofun
  | @ends w' id hp hf ht =>
    rw [act_work hs (opens?_of_open fun h => by cases hp.symm.trans h)]
    have hw : w'.backend.store = (x.world.backend.store.takeNext id).2 := congrArg (·.2.backend.store) ht.symm
    have htakes : x.world.backend.store.OnlyFeeds w'.backend.store := hw ▸ x.world.backend.store.onlyFeeds_takeNext id
    exact ⟨.closes (htakes.trans (w'.onlyFeeds_release _)) rfl rfl, nofun⟩
  | leaves hp ha =>
    rw [act_work hs (opens?_of_open fun h => by cases hp.symm.trans h)]
    exact ⟨.closes hrelease rfl rfl, nofun⟩
  | sends hp hr =>
    rw [act_work hs (opens?_of_open fun h => by cases hp.symm.trans h)]
    exact ⟨.still rfl rfl rfl, nofun⟩
  | sendsLast hp hr =>
    rw [act_work hs (opens?_of_open fun h => by cases hp.symm.trans h)]
    exact ⟨.closes hrelease rfl rfl, nofun⟩

/-- The watch is to report nothing older than `low`, or will when it is open. -/
structure Reports (low start : Int) (span : Span) (x : Watching) : Prop where
  stage : x.world.backend.store.Stage low
  told : NoOlder low x.told
  brings : ∀ id, x.job.feed = some id → x.world.backend.store.Brings low id
  tries : x.job.forwarder.phase = .opening → ∃ policy, World.Tries policy (.watch span (some start)) x.job.opening

variable {low start : Int} {span : Span} {x y : Watching}

theorem reports_start (c : Client) {r : WatchRequest} (h0 : 0 < r.start) {w : World}
    (hw : w.backend.store.Stage low) : (Watching.start c r w).Reports low r.start r.span where
  stage := hw
  told := fun b hb => by cases hb
  brings := fun id hid => by cases hid
  tries := by
    have hs : r.start? = some r.start := if_pos h0
    exact hs ▸ opening_start c r w

theorem Reports.moved (hx : x.Reports low start span) (now : Nat) (m : Move) :
    (x.act (World.env true) (.other (x.world.moved now m) (x.gets (x.world.moved now m)))).Reports
      low start span where
  stage := Backend.stage_move hx.stage now m
  told := by
    refine hx.told.append ?_
    unfold gets
    cases hf : x.job.feed with
    | none => exact fun b hb => by cases hb
    | some id =>
      exact (Backend.brings_move hx.stage (hx.brings id hf) now m).queued.subset (List.drop_subset _ _)
  brings id hf := Backend.brings_move hx.stage (hx.brings id hf) now m
  tries := hx.tries

theorem Reports.allows (hx : x.Reports low start span) (now : Nat) {m : Move}
    (hm : ∀ id, x.job.feed = some id → ¬ m.Uses id) :
    x.Allows (.other (x.world.moved now m) (x.gets (x.world.moved now m))) :=
  allows_moved hx.stage.sound (fun id hid => (hx.brings id hid).old) now hm

theorem Reports.of_frame (hx : x.Reports low start span) (hw : y.world = x.world) (ht : y.told = x.told)
    (hf : y.job.feed = x.job.feed) (hp : y.job.forwarder.phase = x.job.forwarder.phase)
    (ho : y.job.opening = x.job.opening) : y.Reports low start span where
  stage := hw ▸ hx.stage
  told := ht ▸ hx.told
  brings id hid := hw ▸ hx.brings id (hf ▸ hid)
  tries h := ho ▸ hx.tries (hp ▸ h)

theorem Reports.step (hlow : low ≤ start) (h0 : 0 < start) (hx : x.Reports low start span) {j : WatchJob} {w : World}
    (hs : x.job.step? (World.env true) x.world = some (j, w)) :
    (x.act (World.env true) .work).Reports low start span := by
  obtain ⟨hgoes, hopening⟩ := goes_of_step hx.tries hs
  cases hgoes with
  | @opens id b hb ha hf ht =>
    have hstage : b.store.Stage low := hb ▸ hx.stage
    have hbrings := Backend.brings_of_answer hstage h0 ha
    have hold := hbrings.queued.mono hlow
    have hmoved := Backend.stage_move hstage x.world.now (.call (.watch span (some start)))
    rw [Backend.move, ha] at hmoved
    refine ⟨hmoved, ht ▸ hold, fun id' hid => ?_, hopening⟩
    cases hf.symm.trans hid
    exact ⟨hbrings.old, hold⟩
  | refused hs hf ht =>
    refine ⟨hs ▸ hx.stage, fun b hb => ?_, fun id hid => hs ▸ hx.brings id (hf ▸ hid), hopening⟩
    rw [ht] at hb
    cases List.mem_singleton.1 hb
  | hears hb hf ht =>
    exact ⟨hb ▸ Backend.stage_move hx.stage 0 _, ht ▸ hx.told,
      fun id hid => hb ▸ Backend.brings_move hx.stage (hx.brings id (hf ▸ hid)) 0 _, hopening⟩
  | closes hs hf ht =>
    exact ⟨hx.stage.onlyFeeds hs, ht ▸ hx.told, fun id hid => (by cases hf.symm.trans hid), hopening⟩
  | still hs hf ht => exact ⟨hs ▸ hx.stage, ht ▸ hx.told, fun id hid => hs ▸ hx.brings id (hf ▸ hid), hopening⟩

theorem Reports.act (hlow : low ≤ start) (h0 : 0 < start) (hx : x.Reports low start span) {a : Act}
    (ha : ∀ w more, a ≠ .other w more) : (x.act (World.env true) a).Reports low start span := by
  cases a with
  | other w more => exact absurd rfl (ha w more)
  | work =>
    cases hs : x.job.step? (World.env true) x.world with
    | none =>
      simp only [Watching.act, hs]
      exact hx
    | some out => exact hx.step hlow h0 hs
  | take =>
    rcases x.act_take (World.env true) with he | ⟨_, _, _, he⟩
    · rwa [he]
    · rw [he]
      exact hx.of_frame rfl rfl rfl rfl rfl
  | cancel | abandon => exact hx.of_frame rfl rfl rfl rfl rfl

theorem Runs.reports (hy : Runs x y) (hlow : low ≤ start) (h0 : 0 < start) (hx : x.Reports low start span) :
    y.Reports low start span := by
  induction hy with
  | refl => exact hx
  | move _ now m _ ih => exact ih.moved now m
  | act _ a ha ih => exact ih.act hlow h0 ha

theorem Runs.acts (hy : Runs x y) (l : List Act) (hl : ∀ a ∈ l, ∀ w more, a ≠ .other w more) :
    Runs x (l.foldl (Watching.act (World.env true)) y) :=
  l.foldlRecOn _ hy fun _ hz a ha => hz.act a (hl a ha)

theorem Runs.leads (hy : Runs x y) (hlow : low ≤ start) (h0 : 0 < start) (hx : x.Reports low start span) :
    Leads (World.env true) x y := by
  induction hy with
  | refl => exact .refl _
  | move hy now m hm ih => exact ih.act _ ((hy.reports hlow h0 hx).allows now hm)
  | act _ a ha ih => exact ih.act a (allows_own ha)

end Watching

namespace Relaying

inductive Runs : Relaying → Relaying → Prop
  | refl (x : Relaying) : Runs x x
  | move {x y : Relaying} (hy : Runs x y) (now : Nat) (m : Move)
    (hm : ∀ id, y.source.job.feed = some id → ¬ m.Uses id) : Runs x (y.act (World.env true)
      (.other (y.source.world.moved now m) (y.source.gets (y.source.world.moved now m))))
  | act {x y : Relaying} (hy : Runs x y) (a : Act) (ha : ∀ w more, a ≠ .other w more) :
    Runs x (y.act (World.env true) a)

variable {low start : Int} {span : Span} {x y : Relaying}

theorem runs_source (hy : Runs x y) : Watching.Runs x.source y.source := by
  induction hy with
  | refl => exact .refl _
  | move _ now m hm ih => exact ih.move now m hm
  | @act z _ a ha ih =>
    rcases z.source_act (World.env true) ha with he | ⟨b, hb, he⟩
    · rwa [he]
    · rw [he]
      exact ih.act b hb

theorem Runs.acts (hy : Runs x y) (l : List Act) (hl : ∀ a ∈ l, ∀ w more, a ≠ .other w more) :
    Runs x (l.foldl (Relaying.act (World.env true)) y) :=
  l.foldlRecOn _ hy fun _ hz a ha => hz.act a (hl a ha)

theorem Runs.leads (hy : Runs x y) (hlow : low ≤ start) (h0 : 0 < start) (hx : x.source.Reports low start span) :
    Leads (World.env true) x y := by
  induction hy with
  | refl => exact .refl _
  | move hy now m hm ih => exact ih.act _ (((runs_source hy).reports hlow h0 hx).allows now hm)
  | act _ a ha ih => exact ih.act a (allows_own ha)

end Relaying

/-! ## What is reported -/

theorem Delivers.told_of_ok {β : Type} {f : Batch → β} {told : List (Outcome Batch)} {ended : Bool}
    {received : List (Outcome β)} {out : Channel (Outcome β)} {cancelled stopped : Bool}
    (h : Delivers f told ended received out cancelled stopped) {c : β} (hc : .ok c ∈ received) :
    ∃ b, .ok b ∈ told ∧ c = f b := by
  obtain ⟨y, hy, he⟩ := List.mem_map.1 (h.ordered.subset hc)
  cases y with
  | error e => cases he
  | ok b =>
    cases he
    exact ⟨b, hy, rfl⟩

theorem Watching.Reports.reopen {low start : Int} {span : Span} {trim : Option String} {x : Watching}
    (hx : x.Reports low start span) (hf : x.Forwards trim) (hp : x.job.forwarder.phase = .opening) :
    x.Reports (min start (x.world.backend.store.revision + 1)) start span := by
  have hs := hf.stands
  rw [hp] at hs
  cases hs with
  | opening hfeed ht _ =>
    have htold : NoOlder (min start (x.world.backend.store.revision + 1)) x.told := by
      intro b hb
      rw [ht] at hb
      cases hb
    exact ⟨⟨hx.stage.sound, hx.stage.unused, hx.stage.stamped, Int.min_le_right _ _⟩, htold,
      fun id hid => absurd (hfeed.symm.trans hid) nofun, hx.tries⟩

/-- Whatever is committed later and whatever else is done, a watch is told of nothing older than its start and than
what came next when it was opened. What is received from it, or from a relay of it, is what it was told, in order. -/
theorem watched_since {b : Backend} (hb : b.Reached) {start : Int} (h0 : 0 < start) :
    (∀ now span id b', b.answer now (.watch span (some start)) = (.ok id, b') →
      ∀ after : List (Nat × Move), NoOlder (min start (b'.store.revision + 1)) (b'.heard id after)) ∧
    (∀ (c : Client) (r : WatchRequest) (w : World) (x y : Watching), w.backend = b → r.start = start →
      Watching.Runs (.start c r w) x → x.job.forwarder.phase = .opening → Watching.Runs x y →
        NoOlder (min start (x.world.backend.store.revision + 1)) y.told ∧
          y.received <+: y.told.map (Except.map (Changes.ofBatch r.trim?)) ∧
          ∀ changes, .ok changes ∈ y.received → ∀ t e, changes.upserts.get? t = some e →
            min start (x.world.backend.store.revision + 1) ≤ e.modRevision) ∧
    ∀ (c : Client) (r : WatchRequest) (w : World) (x y : Relaying), w.backend = b → r.start = start →
      Relaying.Runs (.start c r w) x → x.source.job.forwarder.phase = .opening → Relaying.Runs x y →
        NoOlder (min start (x.source.world.backend.store.revision + 1)) y.source.told ∧
          y.received <+: y.source.told.map (Except.map (Changes.toDiff ∘ Changes.ofBatch r.trim?)) := by
  have hstage : b.store.Stage (min start (b.store.revision + 1)) :=
    ⟨hb.sound, hb.unused, hb.stamped, Int.min_le_right _ _⟩
  refine ⟨fun now span id b' ha after => ?_, ?_, ?_⟩
  · have hbrings := Backend.brings_of_answer hstage h0 ha
    have hmoved := Backend.stage_move hstage now (.call (.watch span (some start)))
    rw [Backend.move, ha] at hmoved
    have hold : b'.store.Brings (min start (b'.store.revision + 1)) id :=
      ⟨hbrings.old, hbrings.queued.mono (Int.min_le_left _ _)⟩
    exact Backend.heard_noOlder after ⟨hmoved.sound, hmoved.unused, hmoved.stamped, Int.min_le_right _ _⟩ hold
  · rintro c r w x y rfl rfl hx hp hy
    have hstart := Watching.reports_start c h0 hstage
    have hopening := hx.leads (Int.min_le_left _ _) h0 hstart
    have hforwards := (Watching.forwards_start c r w).leads hopening
    have hreports := (hx.reports (Int.min_le_left _ _) h0 hstart).reopen hforwards hp
    have hkeeps := (hforwards.leads (hy.leads (Int.min_le_left _ _) h0 hreports)).keeps (h := World.env true)
    have htold := (hy.reports (Int.min_le_left _ _) h0 hreports).told
    refine ⟨htold, hkeeps.delivers.ordered, fun changes hc t e he => ?_⟩
    obtain ⟨batch, hbatch, rfl⟩ := hkeeps.delivers.told_of_ok hc
    exact htold.upserts hbatch he
  · rintro c r w x y rfl rfl hx hp hy
    have hstart := Watching.reports_start c h0 hstage
    have hopening := hx.leads (Int.min_le_left _ _) h0 hstart
    have hrelays := (Relaying.relays_start c r w).leads hopening
    have hreports := ((Relaying.runs_source hx).reports (Int.min_le_left _ _) h0 hstart).reopen hrelays.source hp
    have hkeeps := (hrelays.leads (hy.leads (Int.min_le_left _ _) h0 hreports)).keeps (h := World.env true)
    exact ⟨((Relaying.runs_source hy).reports (Int.min_le_left _ _) h0 hreports).told, hkeeps.delivers.ordered⟩

/-- A batch is replayed and another one comes: to a watch of the store, to a client's watch and to a relay of one. -/
theorem watched_since_replayed :
    let put (v : UInt8) : Move := .call (.put (Utf8.encode "p/a") [v] none)
    let b := (Backend.ofMembers ["a"]).moves [(0, put 1), (0, put 2)]
    let span : Span := .under (Utf8.encode "p/")
    let after := [(0, .takeNext 0), (0, put 3), (0, .takeNext 0)]
    let batch (n : Int) (v : UInt8) (version : Int) : Batch := ⟨n, [⟨.put, ⟨Utf8.encode "p/a", [v], 2, n, version, 0⟩⟩]⟩
    let told := [some (batch 3 2 2), some (batch 4 3 3)]
    let c : Client := .ofConfig Config.standard
    let r : WatchRequest := ⟨"p/", 3, true, true⟩
    let x := Watching.start c r ⟨0, b, []⟩
    let opened := x.act (World.env true) .work
    let moved := opened.world.moved 0 (put 3)
    let y := [.work, .work, .work, .work, .take, .take].foldl (Watching.act (World.env true))
      (opened.act (World.env true) (.other moved (opened.gets moved)))
    let z := [.work, .work, .work, .work, .relay, .relay, .relay, .relay, .take, .take].foldl
      (Relaying.act (World.env true)) (((Relaying.start c r ⟨0, b, []⟩).act (World.env true) .work).act
        (World.env true) (.other moved (opened.gets moved)))
    b.Reached ∧ (∃ id b', b.answer 0 (.watch span (some 3)) = (.ok id, b') ∧
      (b'.heard id after).map Except.toOption = told ∧
      NoOlder (min 3 (b'.store.revision + 1)) (b'.heard id after)) ∧
    (y.told.map Except.toOption = told ∧ y.received.map Except.toOption =
        [some ⟨.ofList [("a", ⟨"a", [2], 2, 2, 3, 0⟩)], []⟩, some ⟨.ofList [("a", ⟨"a", [3], 3, 2, 4, 0⟩)], []⟩] ∧
      NoOlder (min 3 (b.store.revision + 1)) y.told) ∧
    (z.source.told.map Except.toOption = told ∧ z.received.map Except.toOption =
        [some ⟨.empty, .ofList [("a", [2])], .empty⟩, some ⟨.empty, .ofList [("a", [3])], .empty⟩] ∧
      NoOlder (min 3 (b.store.revision + 1)) z.source.told) := by
  intro put b span after batch told c r x opened moved y z
  have hb : b.Reached := Backend.moves_inv (fun now m h => .move h now m) _ (.ofMembers ["a"])
  have hopen := b.answer_watch_of_unfaulted 0 span (some 3) (by decide +kernel)
  have hy : Watching.Runs x y :=
    (((Watching.Runs.refl x).act .work nofun).move 0 (put 3) fun _ _ h => h).acts _ (by simp)
  have hz : Relaying.Runs (.start c r ⟨0, b, []⟩) z :=
    (((Relaying.Runs.refl _).act .work nofun).move 0 (put 3) fun _ _ h => h).acts _ (by simp)
  obtain ⟨hraw, hwatch, hrelay⟩ := watched_since hb (show (0 : Int) < 3 by decide)
  exact ⟨hb, ⟨_, _, hopen, by decide +kernel, hraw 0 span _ _ hopen after⟩,
    ⟨by decide +kernel, by decide +kernel, (hwatch c r ⟨0, b, []⟩ x y rfl rfl (.refl _) rfl hy).1⟩,
    by decide +kernel, by decide +kernel, (hrelay c r ⟨0, b, []⟩ _ z rfl rfl (.refl _) rfl hz).1⟩

theorem mem_of_toOption {α : Type} {x : α} {l : List (Outcome α)} (h : some x ∈ l.map Except.toOption) :
    .ok x ∈ l := by
  obtain ⟨y, hy, he⟩ := List.mem_map.1 h
  cases y with
  | error e => cases he
  | ok a =>
    cases he
    exact hy

/-- The store is at revision 1, and a watch from revision 10 on is told of revision 2. -/
theorem start_ahead_passed_over :
    let put : Move := .call (.put (Utf8.encode "p/a") [1] none)
    let b := Backend.ofMembers ["a"]
    let next (y : Watching) : Watching := y.act (World.env true) .work
    let x := Watching.start (.ofConfig Config.standard) ⟨"p/", 10, true, true⟩ ⟨0, b, []⟩
    let y := (next x).act (World.env true)
      (.other ((next x).world.moved 0 put) ((next x).gets ((next x).world.moved 0 put)))
    let z := (next (next y)).act (World.env true) .take
    b.Reached ∧ (∃ id b', b.answer 0 (.watch (.under (Utf8.encode "p/")) (some 10)) = (.ok id, b') ∧
      ∃ batch, .ok batch ∈ b'.heard id [(0, put), (0, .takeNext 0)] ∧ batch.revision < 10) ∧
    Watching.Runs x z ∧
      z.received.map Except.toOption = [some ⟨.ofList [("a", ⟨"a", [1], 1, 2, 2, 0⟩)], []⟩] := by
  intro put b next x y z
  have hopen := b.answer_watch_of_unfaulted 0 (.under (Utf8.encode "p/")) (some 10) rfl
  have hx : Watching.Runs x (next x) := (Watching.Runs.refl x).act .work nofun
  have hy : Watching.Runs x y := hx.move 0 put fun _ _ h => h
  have hz : Watching.Runs x (next (next y)) := (hy.act .work nofun).act .work nofun
  let batch : Batch := ⟨2, [⟨.put, ⟨Utf8.encode "p/a", [1], 2, 2, 1, 0⟩⟩]⟩
  refine ⟨.ofMembers ["a"], ⟨_, _, hopen, batch, ?_, by decide⟩, hz.act .take nofun, by decide +kernel⟩
  apply mem_of_toOption
  decide +kernel

end Keyspace
