import Keyspace.Proofs.Store.Chronicle

/-!
# Watching a backend

A run tells each open feed what it commits, whatever else it does to other feeds and however it compacts
(`heard_moves`). A watch is told of all that it asks for, once and in order, or that this is compacted
(`watch_told`).
-/

namespace Keyspace

/-! ## What a run commits -/

namespace Backend

variable {b : Backend}

theorem advances_move (h : b.store.Sound) (now : Nat) (m : Move) :
    b.store.Advances (b.store.since (b.move now m).store) (b.move now m).store := by
  have hl := leads_move h now m
  have quiet : (b.move now m).store.revision = b.store.revision →
      b.store.Advances (b.store.since (b.move now m).store) (b.move now m).store := by
    intro hr
    obtain ⟨_, bs, ha, _⟩ := id hl
    have hlen := ha.revision
    have hbs : bs = [] := List.eq_nil_of_length_eq_zero (by omega)
    rw [Chronicle.since_of_quiet hl hr, ← hbs]
    exact ha
  rcases posts_move h now m with ⟨bs, ha⟩ | ⟨revision, rfl⟩ | ⟨id, hm⟩
  · rw [Chronicle.since_of_appends h ha hl]
    exact ha.advances h hl
  · exact quiet (b.store.revision_compact revision)
  · exact quiet (onlyFeeds_of_uses hm now).revision

/-- All that a run commits, compacted in it or not. -/
def committed (b : Backend) : List (Nat × Move) → List Batch
  | [] => []
  | (now, m) :: l => b.store.since (b.move now m).store ++ (b.move now m).committed l

theorem advances_moves (l : List (Nat × Move)) : ∀ {b : Backend}, b.store.Sound →
    b.store.Advances (b.committed l) (b.moves l).store := by
  induction l with
  | nil => exact fun h => .refl h
  | cons m l ih => exact fun h => (advances_move h m.1 m.2).trans (ih (leads_move h m.1 m.2).1)

end Backend

/-! ## New feeds -/

/-- The next feed has an identifier that no feed has. -/
def Store.Unused (s : Store) : Prop := ∀ f ∈ s.feeds, f.id < s.nextFeed

namespace Store

variable {s s' : Store}

theorem Unused.posts (h : s.Unused) (hp : s.Posts s') : s'.Unused := by
  obtain ⟨bs, ha⟩ := hp
  obtain ⟨more, hm, hid, _⟩ := ha.feeds
  intro f hf
  rw [hm] at hf
  rcases List.mem_append.1 hf with hf | hf
  · obtain ⟨g, hg, rfl⟩ := List.mem_map.1 hf
    rw [Feed.offerAll_id]
    exact Nat.lt_of_lt_of_le (h g hg) ha.nextFeed
  · exact (hid f hf).2

theorem Unused.onlyFeeds (h : s.Unused) (ho : s.OnlyFeeds s') : s'.Unused := by
  obtain ⟨feeds, rfl, hsub⟩ := ho
  intro f hf
  obtain ⟨g, hg, he⟩ := List.mem_map.1 (hsub.subset (List.mem_map_of_mem hf))
  rw [← he]
  exact h g hg

theorem Unused.feed? (h : s.Unused) : s.feed? s.nextFeed = none := by
  apply List.find?_eq_none.2
  intro f hf
  simpa using Nat.ne_of_lt (h f hf)

theorem Unused.feed?_addFeed (h : s.Unused) (span : Span) (live : Bool) (queue : List (Outcome Batch)) :
    (s.addFeed span live queue).2.feed? s.nextFeed = some ⟨s.nextFeed, span, live, queue⟩ := by
  rw [Store.feed?_addFeed, h.feed?, Option.none_or, if_pos rfl]

end Store

theorem Backend.unused_move {b : Backend} (h : b.store.Sound) (hu : b.store.Unused) (now : Nat) (m : Move) :
    (b.move now m).store.Unused := by
  rcases posts_move h now m with hp | ⟨revision, rfl⟩ | ⟨id, hm⟩
  · exact hu.posts hp
  · obtain ⟨floor, histories, log, he⟩ := b.store.compact_eq revision
    show (b.store.compact revision).Unused
    rw [he]
    exact hu
  · exact hu.onlyFeeds (onlyFeeds_of_uses hm now)

theorem Backend.Reached.unused {b : Backend} (h : b.Reached) : b.store.Unused := by
  induction h with
  | ofMembers names => exact fun _ hf => nomatch hf
  | move h now m ih => exact unused_move h.sound ih now m

theorem Backend.unused_moves (l : List (Nat × Move)) : ∀ {b : Backend}, b.store.Sound → b.store.Unused →
    (b.moves l).store.Unused := by
  induction l with
  | nil => exact fun _ hu => hu
  | cons m l ih => exact fun h hu => ih (leads_move h m.1 m.2).1 (unused_move h hu m.1 m.2)

/-! ## What a watcher hears -/

/-- What is heard from a feed by a move. -/
def Move.hears (b : Backend) (id : FeedId) : Move → List (Outcome Batch)
  | .takeNext feed => if feed = id then (b.store.takeNext id).1.toList else []
  | _ => []

/-- What a feed is told of batches. -/
def Feed.news (f : Feed) (bs : List Batch) : List (Outcome Batch) :=
  if f.live then (bs.filterMap (·.within? f.span)).map .ok else []

theorem Feed.news_append (f : Feed) (bs bs' : List Batch) : f.news (bs ++ bs') = f.news bs ++ f.news bs' := by
  unfold news
  split
  · rw [List.filterMap_append, List.map_append]
  · rfl

theorem Feed.offerAll_eq (f : Feed) (bs : List Batch) : f.offerAll bs = { f with queue := f.queue ++ f.news bs } := by
  unfold news
  by_cases h : f.live = true
  · rw [f.offerAll_of_live bs h, if_pos h]
  · rw [f.offerAll_of_not_live bs (Bool.eq_false_iff.2 h), if_neg h, List.append_nil]

theorem Store.takeNext_eq {s : Store} {id : FeedId} {f : Feed} (hf : s.feed? id = some f) :
    (s.takeNext id).1 = f.queue.head?.elim (if f.live then .empty else .ended) .item ∧
      ∃ queue, (s.takeNext id).2.feed? id = some { f with queue } ∧ (s.takeNext id).1.toList ++ queue = f.queue := by
  have ht := Store.takeNext_of_feed? hf
  cases hq : f.queue with
  | nil =>
    rw [hq] at ht
    rw [ht]
    refine ⟨rfl, [], by rw [hf, ← hq], ?_⟩
    cases f.live <;> rfl
  | cons x queue =>
    rw [hq] at ht
    exact ⟨ht.1, queue, ht.2, by rw [ht.1]; rfl⟩

namespace Backend

variable {b : Backend} {id : FeedId} {f : Feed}

def heard (b : Backend) (id : FeedId) : List (Nat × Move) → List (Outcome Batch)
  | [] => []
  | (now, m) :: l => m.hears b id ++ (b.move now m).heard id l

theorem hears_of_not_uses {m : Move} (hm : ¬ m.Uses id) : m.hears b id = [] := by
  cases m with
  | takeNext feed => exact if_neg hm
  | _ => rfl

theorem heard_move (h : b.store.Sound) (hf : b.store.feed? id = some f) (now : Nat) {m : Move}
    (hm : m ≠ .closeFeed id) : ∃ queue, (b.move now m).store.feed? id = some { f with queue } ∧
      m.hears b id ++ queue = f.queue ++ f.news (b.store.since (b.move now m).store) := by
  by_cases hu : m.Uses id
  · have hnews : f.news (b.store.since (b.move now m).store) = [] := by
      rw [(onlyFeeds_of_uses hu now).since h]
      unfold Feed.news
      split <;> rfl
    rw [hnews, List.append_nil]
    cases m with
    | takeNext feed =>
      cases hu
      rw [Move.hears, if_pos rfl]
      exact (Store.takeNext_eq hf).2
    | closeFeed feed => exact absurd (congrArg Move.closeFeed hu) hm
    | _ => exact hu.elim
  · refine ⟨_, (feed?_move h now hu hf).trans (congrArg some (f.offerAll_eq _)), ?_⟩
    rw [hears_of_not_uses hu, List.nil_append]

theorem heard_moves (l : List (Nat × Move)) : ∀ {b : Backend} {f : Feed}, b.store.Sound →
    b.store.feed? id = some f → (∀ m ∈ l, m.2 ≠ .closeFeed id) →
      ∃ queue, (b.moves l).store.feed? id = some { f with queue } ∧
        b.heard id l ++ queue = f.queue ++ f.news (b.committed l) := by
  induction l with
  | nil =>
    intro b f _ hf _
    exact ⟨f.queue, hf, by simp [heard, committed, Feed.news]⟩
  | cons m l ih =>
    intro b f h hf hl
    obtain ⟨queue, hf', hq⟩ := heard_move h hf m.1 (hl m List.mem_cons_self)
    obtain ⟨queue', hf'', hq'⟩ := ih (leads_move h m.1 m.2).1 hf' fun n hn => hl n (List.mem_cons_of_mem _ hn)
    refine ⟨queue', hf'', ?_⟩
    calc b.heard id (m :: l) ++ queue'
        = m.2.hears b id ++ ((b.move m.1 m.2).heard id l ++ queue') := List.append_assoc ..
      _ = m.2.hears b id ++ queue ++ f.news ((b.move m.1 m.2).committed l) := by
        rw [hq', List.append_assoc]
        rfl
      _ = f.queue ++ f.news (b.committed (m :: l)) := by
        rw [hq, List.append_assoc, ← Feed.news_append]
        rfl

/-- At any time what was heard is the first of what is told, and the next of it is there to take. -/
theorem hears_told (h : b.store.Sound) (hf : b.store.feed? id = some f) {l : List (Nat × Move)}
    (hl : ∀ m ∈ l, m.2 ≠ .closeFeed id) {told : List (Outcome Batch)}
    (ht : told = f.queue ++ f.news (b.committed l)) : b.heard id l <+: told ∧
      ((b.moves l).store.takeNext id).1 =
        told[(b.heard id l).length]?.elim (if f.live then .empty else .ended) .item := by
  obtain ⟨queue, hf', hq⟩ := heard_moves l h hf hl
  rw [ht, ← hq]
  refine ⟨List.prefix_append _ _, ?_⟩
  rw [(Store.takeNext_eq hf').1, List.getElem?_append_right (Nat.le_refl _), Nat.sub_self, List.head?_eq_getElem?]

end Backend

/-! ## What a watch is told -/

/-- What a watch is told, and what it finds once it has heard all that. When it was opened, `past` was committed
and what lay below `floor` was compacted; `news` was committed after. -/
structure Told (floor : Int) (past news : List Batch) (span : Span) (start : Option Int)
    (told : List (Outcome Batch)) (rest : Next (Outcome Batch)) : Prop where
  onwards : (∀ r, start = some r → r ≤ 0) → told = (news.filterMap (·.within? span)).map .ok ∧ rest = .empty
  since : ∀ r, start = some r → 0 < r → floor ≤ r → ∃ bs : List Batch, told = bs.map .ok ∧ rest = .empty ∧
    bs = (past.filter (r ≤ ·.revision) ++ news).filterMap (·.within? span) ∧ Rising bs ∧
      bs.filter (r ≤ ·.revision) = ((past ++ news).filter (r ≤ ·.revision)).filterMap (·.within? span)
  compacted : ∀ r, start = some r → 0 < r → r < floor →
    told = [.error (.revisionCompacted r floor)] ∧ rest = .ended

section
variable {past news : List Batch} {r : Int}

theorem told_onwards (floor : Int) (past news : List Batch) (span : Span) {start : Option Int}
    (h : ∀ r, start = some r → r ≤ 0) :
    Told floor past news span start ((news.filterMap (·.within? span)).map .ok) .empty where
  onwards _ := ⟨rfl, rfl⟩
  since r hr h0 _ := absurd (h r hr) (Int.not_le.2 h0)
  compacted r hr h0 _ := absurd (h r hr) (Int.not_le.2 h0)

theorem told_since {floor : Int} (hrising : Rising (past ++ news)) (span : Span) (h0 : 0 < r) (hf : floor ≤ r) :
    Told floor past news span (some r)
      (((past.filter (r ≤ ·.revision) ++ news).filterMap (·.within? span)).map .ok) .empty where
  onwards h := absurd (h r rfl) (Int.not_le.2 h0)
  compacted _ hr _ hlt := by
    cases hr
    exact absurd hf (Int.not_le.2 hlt)
  since _ hr _ _ := by
    cases hr
    have hsub : (past.filter (r ≤ ·.revision) ++ news).Sublist (past ++ news) :=
      List.filter_sublist.append (.refl _)
    refine ⟨_, rfl, rfl, rfl, Rising.within (hrising.sublist hsub) span, ?_⟩
    rw [Batch.filter_within? span (r ≤ ·)]
    simp only [List.filter_append, List.filter_filter, Bool.and_self]

theorem told_compacted {floor : Int} (past news : List Batch) (span : Span) (h0 : 0 < r) (hf : r < floor) :
    Told floor past news span (some r) [.error (.revisionCompacted r floor)] .ended where
  onwards h := absurd (h r rfl) (Int.not_le.2 h0)
  since _ hr _ hle := by
    cases hr
    exact absurd hf (Int.not_lt.2 hle)
  compacted _ hr _ _ := by
    cases hr
    exact ⟨rfl, rfl⟩

end

namespace Store

variable {s : Store} {past news : List Batch} {r : Int}

theorem dueAt_eq_of_log (hlog : s.log = past.filter (s.floor ≤ ·.revision)) (span : Span) (hr : s.floor ≤ r) :
    s.dueAt span r = ((past.filter (r ≤ ·.revision)).filterMap (·.within? span)).map .ok := by
  have hfilter : s.log.filter (r ≤ ·.revision) = past.filter (r ≤ ·.revision) := by
    rw [hlog, List.filter_filter]
    apply List.filter_congr
    intro b _
    rw [← Bool.decide_and, decide_eq_decide]
    omega
  unfold dueAt
  rw [if_pos hr, hfilter]

/-- The feed that a watch opens has what is due of the past, and is told the news as far as they are due. -/
theorem Unused.told_watch (hu : s.Unused) (hlog : s.log = past.filter (s.floor ≤ ·.revision))
    (hrising : Rising (past ++ news)) (span : Span) (start : Option Int) :
    ∃ f, (s.watch span start).2.feed? (s.watch span start).1 = some f ∧
      Told s.floor past news span start (f.queue ++ f.news news) (if f.live then .empty else .ended) := by
  by_cases hstart : ∀ r, start = some r → r ≤ 0
  · have hnone : start.filter (0 < ·) = none := by
      cases start with
      | none => rfl
      | some r => simpa using hstart r rfl
    have hw : s.watch span start = s.addFeed span true [] := by rw [watch, hnone]
    rw [hw]
    exact ⟨_, hu.feed?_addFeed span true [], told_onwards s.floor past news span hstart⟩
  · obtain ⟨r, rfl, h0⟩ : ∃ r, start = some r ∧ 0 < r := by simpa using hstart
    rw [s.watch_eq span h0]
    refine ⟨_, hu.feed?_addFeed span _ _, ?_⟩
    by_cases hf : s.floor ≤ r
    · have ht := told_since hrising span h0 hf
      rw [List.filterMap_append, List.map_append, ← dueAt_eq_of_log hlog span hf] at ht
      simpa [Feed.news, hf] using ht
    · have ht := told_compacted past news span h0 (Int.not_le.1 hf)
      simpa [Feed.news, dueAt, hf] using ht

end Store

namespace Backend

theorem answer_watch_of_unfaulted (b : Backend) (now : Nat) (span : Span) (start : Option Int)
    (h : meetFault .watch b.faults = none) :
    b.answer now (.watch span start) =
      (.ok ((b.store.expire now).watch span start).1,
        { b with store := ((b.store.expire now).watch span start).2, calls := .watch :: b.calls }) := by
  have hn : (Call.watch span start).name = .watch := rfl
  simp only [answer, hn, h, Store.answer]

/-- A watch is told all that it asks for, once and in order. -/
theorem watch_told (names : List String) (before : List (Nat × Move)) (now : Nat) (span : Span)
    (start : Option Int) (h : meetFault .watch ((ofMembers names).moves before).faults = none) :
    ∃ id b, ((ofMembers names).moves before).answer now (.watch span start) = (.ok id, b) ∧
      ∀ after : List (Nat × Move), (∀ m ∈ after, m.2 ≠ .closeFeed id) →
        let past := (ofMembers names).committed (before ++ [(now, .call (.watch span start))])
        let news := b.committed after
        (Store.ofMembers names).Advances (past ++ news) (b.moves after).store ∧
          ∃ told rest, Told ((ofMembers names).moves before).store.floor past news span start told rest ∧
            b.heard id after <+: told ∧
            ((b.moves after).store.takeNext id).1 = told[(b.heard id after).length]?.elim rest .item := by
  obtain ⟨b, hb⟩ : ∃ b, b = (ofMembers names).moves before := ⟨_, rfl⟩
  rw [← hb] at h ⊢
  have hs : b.store.Sound := hb ▸ (leads_moves before (.ofMembers names)).1
  have hu : b.store.Unused := hb ▸ unused_moves before (.ofMembers names) fun _ hf => by cases hf
  have hopen := b.answer_watch_of_unfaulted now span start h
  refine ⟨_, _, hopen, fun after hkept => ?_⟩
  -- The leases that are due end first, and what that commits is not news.
  obtain ⟨s, hexp⟩ : ∃ s, s = b.store.expire now := ⟨_, rfl⟩
  obtain ⟨bs, hexpire⟩ : b.store.Posts s := hexp ▸ Store.posts_endAll _ hs
  have hwatch := s.appends_watch span start
  rw [← hexp] at hopen hkept ⊢
  have hopened : (b.move now (.call (.watch span start))).store.Sound := (leads_move hs now _).1
  have hpast := advances_moves (before ++ [(now, .call (.watch span start))]) (b := ofMembers names) (.ofMembers names)
  rw [moves_append, ← hb] at hpast
  change (Store.ofMembers names).Advances _ (b.answer now (.watch span start)).2.store at hpast
  change (b.answer now (.watch span start)).2.store.Sound at hopened
  rw [hopen] at hpast hopened
  have hall := hpast.trans (advances_moves after hopened)
  have hlog := hpast.log
  rw [hwatch.log, hwatch.floor, List.append_nil] at hlog
  obtain ⟨f, hf, htold⟩ := (hu.posts ⟨bs, hexpire⟩).told_watch hlog hall.rising span start
  rw [hexpire.floor] at htold
  exact ⟨hall, _, _, htold, hears_told hopened hf hkept rfl⟩

/-- Another watch is closed, and all that is told is compacted, before the watch hears what was committed. -/
theorem watch_told_compacting :
    let before : List (Nat × Move) := [(0, .call (.put [1] [10] none)), (0, .call (.put [2] [20] none)),
      (0, .call (.watch ⟨[1], some [3]⟩ none)), (0, .compact 2)]
    let after : List (Nat × Move) := [(1, .takeNext 1), (1, .closeFeed 0),
      (1, .call (.txn (.always [.put [1] [11] none, .put [2] [21] none, .delete ⟨[1], none⟩]))),
      (2, .call (.put [2] [22] none)), (2, .compact 5), (3, .takeNext 1)]
    let c : Call := .watch ⟨[1], none⟩ (some 2)
    let b := (((ofMembers ["a"]).moves before).answer 0 c).2
    meetFault .watch ((ofMembers ["a"]).moves before).faults = none ∧ (∀ m ∈ after, m.2 ≠ .closeFeed 1) ∧
      (∃ told rest, Told 2 ((ofMembers ["a"]).committed (before ++ [(0, .call c)])) (b.committed after) ⟨[1], none⟩
        (some 2) told rest ∧ b.heard 1 after <+: told ∧
          ((b.moves after).store.takeNext 1).1 = told[(b.heard 1 after).length]?.elim rest .item) ∧
      (b.heard 1 after).map Except.toOption = [some ⟨2, [⟨.put, ⟨[1], [10], 2, 2, 1, 0⟩⟩]⟩,
        some ⟨4, [⟨.put, ⟨[1], [11], 2, 4, 2, 0⟩⟩, ⟨.delete, ⟨[1], [], 0, 4, 0, 0⟩⟩]⟩] := by
  intro before after c b
  have h : meetFault .watch ((ofMembers ["a"]).moves before).faults = none := by decide +kernel
  have hkept : ∀ m ∈ after, m.2 ≠ .closeFeed 1 := by simp [after]
  have hfloor : ((ofMembers ["a"]).moves before).store.floor = 2 := by decide +kernel
  have hid : @Except.toOption _ FeedId (((ofMembers ["a"]).moves before).answer 0 c).1 = some 1 := by decide +kernel
  refine ⟨h, hkept, ?_, by decide +kernel⟩
  obtain ⟨id, b', hopen, hall⟩ := watch_told ["a"] before 0 ⟨[1], none⟩ (some 2) h
  have hb : b = b' := congrArg (·.2) hopen
  rw [hopen] at hid
  cases hid
  rw [hb, ← hfloor]
  exact (hall after hkept).2

end Backend

end Keyspace
