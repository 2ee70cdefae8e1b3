import Keyspace.Proofs.Store.Succession
import Keyspace.Proofs.Watch.Since

/-!
# Relays and all that is committed

A run of a relay beside others that put only text is recorded with all that is committed in it
(`Relaying.Recorded`). What is committed is a chronicle, and what the relay receives are diffs of what a committed
batch does in the span of the watch (`Relaying.Recorded.received`).
-/

namespace Keyspace

open Sim (World WatchJob)

/-! ## Parts of batches -/

/-- The batches among the items are what `batches` do in the span. -/
def PartsOf (span : Span) (batches : List Batch) (items : List (Outcome Batch)) : Prop :=
  ∀ d, .ok d ∈ items → ∃ b ∈ batches, b.within? span = some d

namespace PartsOf

variable {span : Span} {batches bs : List Batch} {l l' : List (Outcome Batch)}

theorem append (h : PartsOf span batches l) (h' : PartsOf span batches l') : PartsOf span batches (l ++ l') :=
  fun d hd => (List.mem_append.1 hd).elim (h d) (h' d)

theorem subset (h : PartsOf span batches l) (hl : l' ⊆ l) : PartsOf span batches l' := fun d hd => h d (hl hd)

theorem mono (h : PartsOf span bs l) (hbs : bs ⊆ batches) : PartsOf span batches l := fun d hd => by
  obtain ⟨b, hb, hw⟩ := h d hd
  exact ⟨b, hbs hb, hw⟩

theorem within (span : Span) (batches : List Batch) :
    PartsOf span batches ((batches.filterMap (·.within? span)).map .ok) := by
  intro d hd
  obtain ⟨c, hc, he⟩ := List.mem_map.1 hd
  cases he
  exact List.mem_filterMap.1 hc

theorem error (span : Span) (batches : List Batch) (e : Failure) : PartsOf span batches [.error e] := by
  intro d hd
  cases List.mem_singleton.1 hd

end PartsOf

theorem Feed.partsOf_news (f : Feed) (bs : List Batch) : PartsOf f.span bs (f.news bs) := by
  unfold news
  split
  · exact .within _ _
  · exact nofun

namespace Store

variable {s : Store} {span : Span} {batches : List Batch} {id : FeedId}

/-- A feed that was opened for a span, with parts of batches in it. -/
structure Shows (s : Store) (span : Span) (batches : List Batch) (id : FeedId) : Prop where
  old : id < s.nextFeed
  queued : ∀ f, s.feed? id = some f → f.span = span ∧ PartsOf span batches f.queue

theorem Shows.pending (h : s.Shows span batches id) : PartsOf span batches (s.pending id) := by
  cases hf : s.feed? id with
  | none =>
    rw [Store.pending, hf]
    exact fun d hd => by cases hd
  | some f =>
    rw [pending_of_feed? hf]
    exact (h.queued f hf).2

theorem Shows.mono {bs : List Batch} (h : s.Shows span bs id) (hbs : bs ⊆ batches) : s.Shows span batches id :=
  ⟨h.old, fun f hf => ⟨(h.queued f hf).1, (h.queued f hf).2.mono hbs⟩⟩

theorem Unused.shows_addFeed (hu : s.Unused) (span : Span) (live : Bool) {queue : List (Outcome Batch)}
    (hq : PartsOf span batches queue) : (s.addFeed span live queue).2.Shows span batches s.nextFeed := by
  refine ⟨Nat.lt_succ_self _, fun f hf => ?_⟩
  cases (hu.feed?_addFeed span live queue).symm.trans hf
  exact ⟨rfl, hq⟩

theorem Unused.shows_watch (hu : s.Unused) (span : Span) (start : Option Int) :
    (s.watch span start).2.Shows span s.log (s.watch span start).1 := by
  unfold watch
  split
  · exact hu.shows_addFeed span true nofun
  · rename_i r _
    split
    · exact hu.shows_addFeed span false (.error _ _ _)
    · have hparts : PartsOf span (s.log.filter (r ≤ ·.revision)) ((s.replay span r).map .ok) := .within _ _
      exact hu.shows_addFeed span true (hparts.mono List.filter_sublist.subset)

end Store

namespace Backend

variable {b b' : Backend} {span : Span} {batches : List Batch} {id : FeedId}

theorem shows_move (hs : b.store.Sound) (h : b.store.Shows span batches id) (now : Nat) (m : Move) :
    (b.move now m).store.Shows span (batches ++ b.store.since (b.move now m).store) id := by
  refine ⟨Nat.lt_of_lt_of_le h.old (nextFeed_move hs now m), fun f' hf' => ?_⟩
  obtain ⟨f, hf, hspan, hqueue⟩ := feed?_of_move hs h.old hf'
  obtain ⟨rfl, hparts⟩ := h.queued f hf
  have hold := hparts.mono (List.subset_append_left batches (b.store.since (b.move now m).store))
  have hnews := (f.partsOf_news (b.store.since (b.move now m).store)).mono (List.subset_append_right batches _)
  exact ⟨hspan, (hold.append hnews).subset hqueue⟩

theorem shows_of_answer (hb : Chronicle batches b.store) {now : Nat} {start : Option Int}
    (ha : b.answer now (.watch span start) = (.ok id, b')) :
    b'.store.Shows span (batches ++ b.store.since b'.store) id := by
  obtain ⟨hr, hstore⟩ := store_answer_of_ok (congrArg (·.1) ha)
  rw [ha] at hstore
  have hu : (b.store.expire now).Unused := Store.Unused.posts hb.fed (Store.posts_endAll _ hb.sound)
  have hshows := hu.shows_watch span start
  have hlog := ((b.store.expire now).appends_watch span start).log
  have hmoved := hb.move now (m := .call (.watch span start)) fun _ hk => hk.elim
  rw [move, ha] at hmoved
  have hid : ((b.store.expire now).watch span start).1 = id := Except.ok.inj hr
  have hstore : b'.store = ((b.store.expire now).watch span start).2 := hstore
  have hlogged : b'.store.log ⊆ batches ++ b.store.since b'.store := by
    rw [hmoved.log_eq]
    exact List.filter_sublist.subset
  rw [List.append_nil] at hlog
  rw [hid, ← hlog, ← hstore] at hshows
  exact hshows.mono hlogged

end Backend

/-! ## Watches -/

namespace Watching

variable {span : Span} {start? : Option Int} {batches : List Batch} {x y : Watching}

/-- The watch is told parts of what was committed. -/
structure Recounts (span : Span) (start? : Option Int) (batches : List Batch) (x : Watching) : Prop where
  succession : Succession batches x.world.backend.store
  told : PartsOf span batches x.told
  shows : ∀ id, x.job.feed = some id → x.world.backend.store.Shows span batches id
  opening : x.Opening span start?

theorem recounts_start (c : Client) (r : WatchRequest) {w : World} (hw : Succession batches w.backend.store) :
    (start c r w).Recounts r.span r.start? batches where
  succession := hw
  told := nofun
  shows := nofun
  opening := opening_start c r w

theorem Recounts.moved (h : x.Recounts span start? batches) (now : Nat) {m : Move} (hp : ∀ k, m.Puts k → IsText k) :
    (x.act (World.env true) (.other (x.world.moved now m) (x.gets (x.world.moved now m)))).Recounts span start?
      (batches ++ x.world.backend.store.since (x.world.moved now m).backend.store) where
  succession := h.succession.move now hp
  told := by
    refine (h.told.mono (List.subset_append_left ..)).append ?_
    unfold gets
    cases hf : x.job.feed with
    | none => exact nofun
    | some id =>
      have hshows := Backend.shows_move h.succession.chronicle.sound (h.shows id hf) now m
      exact hshows.pending.subset (List.drop_subset _ _)
  shows id hid := Backend.shows_move h.succession.chronicle.sound (h.shows id hid) now m
  opening := h.opening

/-- The store is the same, or one of its feeds is closed. -/
theorem Recounts.goOn (h : x.Recounts span start? batches)
    (hs : x.world.backend.store.OnlyFeeds y.world.backend.store) (ht : PartsOf span batches y.told)
    (hf : ∀ id, y.job.feed = some id → y.world.backend.store.Shows span batches id) (ho : y.Opening span start?) :
    y.Recounts span start? (batches ++ x.world.backend.store.since y.world.backend.store) := by
  have hsuccession := h.succession.onlyFeeds hs
  rw [hs.since h.succession.chronicle.sound, List.append_nil] at hsuccession ⊢
  exact ⟨hsuccession, ht, hf, ho⟩

theorem Recounts.work (h : x.Recounts span start? batches) :
    (x.act (World.env true) .work).Recounts span start?
      (batches ++ x.world.backend.store.since (x.act (World.env true) .work).world.backend.store) := by
  cases hs : x.job.step? (World.env true) x.world with
  | none =>
    have hsame : x.act (World.env true) .work = x := by simp only [Watching.act, hs]
    rw [hsame]
    exact h.goOn (.refl _) h.told h.shows h.opening
  | some out =>
    obtain ⟨hgoes, hopening⟩ := goes_of_step h.opening hs
    generalize x.act (World.env true) .work = y at hgoes hopening
    cases hgoes with
    -- what is told when the watch opens is read back from the log, and so committed before
    | @opens id b hb ha hf ht =>
      have hsuccession : Succession batches b.store := hb ▸ h.succession
      have hmoved := hsuccession.move x.world.now (m := .call (.watch span start?)) fun _ hk => hk.elim
      have hshows := Backend.shows_of_answer hsuccession.chronicle ha
      rw [Backend.move, ha] at hmoved
      rw [← hb]
      refine ⟨hmoved, ht ▸ hshows.pending, fun id' hid => ?_, hopening⟩
      cases hf.symm.trans hid
      exact hshows
    | refused hs hf ht =>
      exact h.goOn (hs ▸ .refl _) (ht ▸ .error _ _ _) (fun id hid => hs ▸ h.shows id (hf ▸ hid)) hopening
    | @hears id hb hf ht =>
      have hmoved := h.succession.move 0 (m := .takeNext id) fun _ hk => hk.elim
      rw [← hb] at hmoved
      refine ⟨hmoved, ht ▸ h.told.mono (List.subset_append_left ..), fun id' hid => ?_, hopening⟩
      have hshows := Backend.shows_move h.succession.chronicle.sound (h.shows id' (hf ▸ hid)) 0 (.takeNext id)
      rwa [← hb] at hshows
    | closes hs hf ht => exact h.goOn hs (ht ▸ h.told) (fun id hid => by cases hf.symm.trans hid) hopening
    | still hs hf ht =>
      exact h.goOn (hs ▸ .refl _) (ht ▸ h.told) (fun id hid => hs ▸ h.shows id (hf ▸ hid)) hopening

theorem Recounts.act (h : x.Recounts span start? batches) {a : Act} (ha : ∀ w more, a ≠ .other w more) :
    (x.act (World.env true) a).Recounts span start?
      (batches ++ x.world.backend.store.since (x.act (World.env true) a).world.backend.store) := by
  cases a with
  | other w more => exact absurd rfl (ha w more)
  | work => exact h.work
  | take =>
    rcases x.act_take (World.env true) with he | ⟨_, _, _, he⟩
    · rw [he]
      exact h.goOn (.refl _) h.told h.shows h.opening
    · rw [he]
      exact h.goOn (.refl _) h.told h.shows h.opening
  | cancel | abandon => exact h.goOn (.refl _) h.told h.shows h.opening

end Watching

/-! ## Relays -/

namespace Relaying

variable {span : Span} {start? : Option Int} {batches : List Batch} {x y : Relaying}

def store (x : Relaying) : Store := x.source.world.backend.store

/-- Others move the backend. -/
def moved (x : Relaying) (now : Nat) (m : Move) : Relaying :=
  x.act (World.env true) (.other (x.source.world.moved now m) (x.source.gets (x.source.world.moved now m)))

/-- A run from `x`, with all that is committed in it. Others put only text, and leave the feed of the watch alone. -/
inductive Recorded (x : Relaying) : List Batch → Relaying → Prop
  | refl : Recorded x [] x
  | move {batches : List Batch} {y : Relaying} (hy : Recorded x batches y) (now : Nat) (m : Move)
    (hm : ∀ id, y.source.job.feed = some id → ¬ m.Uses id) (hp : ∀ k, m.Puts k → IsText k) :
    Recorded x (batches ++ y.store.since (y.moved now m).store) (y.moved now m)
  | act {batches : List Batch} {y : Relaying} (hy : Recorded x batches y) (a : Act) (ha : ∀ w more, a ≠ .other w more) :
    Recorded x (batches ++ y.store.since (y.act (World.env true) a).store) (y.act (World.env true) a)

theorem Recorded.recounts (hx : x.source.Recounts span start? []) (hy : x.Recorded batches y) :
    Leads (World.env true) x y ∧ y.source.Recounts span start? batches := by
  induction hy with
  | refl => exact ⟨.refl x, hx⟩
  | @move batches y _ now m hm hp ih =>
    obtain ⟨hleads, hy⟩ := ih
    have hold := fun id hid => (hy.shows id hid).old
    exact ⟨hleads.act _ (Watching.allows_moved hy.succession.chronicle.sound hold now hm), hy.moved now hp⟩
  | @act batches y _ a ha ih =>
    obtain ⟨hleads, hy⟩ := ih
    refine ⟨hleads.act a (allows_own ha), ?_⟩
    unfold store
    rcases y.source_act (World.env true) ha with he | ⟨b, hb, he⟩
    · rw [he]
      exact hy.goOn (.refl _) hy.told hy.shows hy.opening
    · rw [he]
      exact hy.act hb

/-- What is received are the diffs of what committed batches do in the span. -/
theorem Recorded.received {c : Client} {r : WatchRequest} {w : World} {names : List String}
    (hw : w.backend = .ofMembers names) (hy : (start c r w).Recorded batches y) {diff : Diff}
    (hd : .ok diff ∈ y.received) : ∃ b ∈ batches, ∃ d, b.within? r.span = some d ∧
      diff = (Changes.ofBatch r.trim? d).toDiff := by
  have hsuccession : Succession [] w.backend.store := hw ▸ .ofMembers names
  obtain ⟨hleads, hrecounts⟩ := hy.recounts (Watching.recounts_start c r hsuccession)
  have hkeeps := ((relays_start c r w).leads hleads).keeps (h := World.env true)
  obtain ⟨d, htold, rfl⟩ := hkeeps.delivers.told_of_ok hd
  obtain ⟨b, hb, hpart⟩ := hrecounts.told d htold
  exact ⟨b, hb, d, hpart, rfl⟩

end Relaying

end Keyspace
