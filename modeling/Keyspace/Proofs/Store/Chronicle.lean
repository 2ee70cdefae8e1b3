import Keyspace.Proofs.Store.Log

/-!
# Chronicles

A chronicle is all that a store ever committed, compacted or not. It tells the view at every revision
(`asOf_eq_viewAt`), and each move adds to it, and to every feed that it leaves alone, what it commits
(`Chronicle.move`, `Backend.feed?_move`).
-/

namespace Keyspace

/-! ## What batches tell -/

def viewAt (batches : List Batch) (r : Int) : SortedMap Bytes Record :=
  (batches.filter (·.revision ≤ r)).foldl Batch.applyTo .empty

abbrev Rising (batches : List Batch) : Prop := batches.Pairwise fun a b => a.revision < b.revision

/-- Records are found under their own keys, which are text. -/
def Keyed (v : SortedMap Bytes Record) : Prop := ∀ k r, v.get? k = some r → r.key = k ∧ IsText k

theorem Keyed.event {v : SortedMap Bytes Record} (h : Keyed v) {e : Event} (he : IsText e.record.key) :
    Keyed (e.applyTo v) := by
  intro k r hr
  unfold Event.applyTo at hr
  cases hk : e.kind with
  | put =>
    rw [hk] at hr
    simp only [SortedMap.get?_insert] at hr
    by_cases hkey : e.record.key = k
    · rw [if_pos hkey] at hr
      cases hr
      exact ⟨hkey, hkey ▸ he⟩
    · rw [if_neg hkey] at hr
      exact h k r hr
  | delete =>
    rw [hk] at hr
    simp only [SortedMap.get?_erase] at hr
    split at hr
    · cases hr
    · exact h k r hr

theorem Keyed.events (events : List Event) : ∀ {v : SortedMap Bytes Record}, Keyed v →
    (∀ e ∈ events, IsText e.record.key) → Keyed (events.foldl Event.applyTo v) := by
  induction events with
  | nil => exact fun h _ => h
  | cons e events ih =>
    exact fun h ht => ih (h.event (ht e List.mem_cons_self)) fun d hd => ht d (List.mem_cons_of_mem _ hd)

theorem keyed_viewAt {batches : List Batch} (h : ∀ b ∈ batches, ∀ e ∈ b.events, IsText e.record.key) (r : Int) :
    Keyed (viewAt batches r) := by
  rw [viewAt, Batch.foldl_applyTo]
  apply Keyed.events _ (fun k x hx => by cases hx)
  intro e he
  obtain ⟨b, hb, he⟩ := List.mem_flatMap.1 he
  exact h b (List.mem_filter.1 hb).1 e he

theorem Rising.within {batches : List Batch} (h : Rising batches) (span : Span) :
    Rising (batches.filterMap (·.within? span)) := by
  apply List.Pairwise.filterMap _ _ h
  intro b b' hlt d hd d' hd'
  rw [Batch.revision_of_within? hd, Batch.revision_of_within? hd']
  exact hlt

theorem Store.Advances.rising {s s' : Store} {bs : List Batch} (h : s.Advances bs s') : Rising bs := by
  apply List.pairwise_iff_getElem.2
  intro i j hi hj hij
  have h₁ := h.numbered i _ (List.getElem?_eq_getElem hi)
  have h₂ := h.numbered j _ (List.getElem?_eq_getElem hj)
  omega

theorem Rising.filter_le {batches : List Batch} (h : Rising batches) {r r' : Int} (hr : r ≤ r') :
    batches.filter (·.revision ≤ r') =
      batches.filter (·.revision ≤ r) ++ (batches.filter (r < ·.revision)).filter (·.revision ≤ r') := by
  induction batches with
  | nil => rfl
  | cons b batches ih =>
    obtain ⟨hb, hrest⟩ := List.pairwise_cons.1 h
    have ih := ih hrest
    by_cases hle : b.revision ≤ r
    · have h₁ : b.revision ≤ r' := by omega
      have h₂ : ¬ r < b.revision := by omega
      simp only [List.filter_cons, hle, h₁, h₂, decide_true, decide_false, if_true]
      rw [ih]
      simp
    · have hnone : batches.filter (·.revision ≤ r) = [] := by
        apply List.filter_eq_nil_iff.2
        intro d hd
        have := hb d hd
        simp only [decide_eq_true_eq]
        omega
      have hlt : r < b.revision := by omega
      rw [hnone, List.nil_append] at ih
      simp only [List.filter_cons, hle, hlt, decide_true, decide_false, if_true, hnone]
      split
      · rw [ih]
        simp
      · rw [ih]
        simp

theorem Rising.viewAt_eq {batches : List Batch} (h : Rising batches) {r r' : Int} (hr : r ≤ r') :
    viewAt batches r' =
      ((batches.filter (r < ·.revision)).filter (·.revision ≤ r')).foldl Batch.applyTo (viewAt batches r) := by
  rw [viewAt, h.filter_le hr, List.foldl_append]
  rfl

theorem Rising.upto_last {bs more : List Batch} {b : Batch} (h : Rising (bs ++ [b] ++ more)) :
    (bs ++ [b] ++ more).filter (·.revision ≤ b.revision) = bs ++ [b] := by
  obtain ⟨hbs, _, hmore⟩ := List.pairwise_append.1 h
  rw [List.filter_append, List.filter_eq_self.2, List.filter_eq_nil_iff.2, List.append_nil]
  · intro d hd
    have := hmore b (List.mem_append_right _ List.mem_cons_self) d hd
    simp only [decide_eq_true_eq]
    omega
  · intro d hd
    rcases List.mem_append.1 hd with hd | hd
    · have := (List.pairwise_append.1 hbs).2.2 d hd b List.mem_cons_self
      simp only [decide_eq_true_eq]
      omega
    · cases List.mem_singleton.1 hd
      simp

theorem filter_eq_take {l : List Batch} : ∀ {a : Int},
    (∀ (i : Nat) (b : Batch), l[i]? = some b → b.revision = a + i + 1) →
      ∀ n : Nat, l.filter (·.revision ≤ a + n) = l.take n := by
  induction l with
  | nil => intro a h n; simp
  | cons b l ih =>
    intro a h n
    have hb : b.revision = a + 1 := by simpa using h 0 b rfl
    have htail : ∀ (i : Nat) (c : Batch), l[i]? = some c → c.revision = (a + 1) + i + 1 := by
      intro i c hc
      have := h (i + 1) c (by simpa using hc)
      omega
    cases n with
    | zero =>
      apply List.filter_eq_nil_iff.2
      intro c hc
      obtain ⟨i, hi⟩ := List.mem_iff_getElem?.1 hc
      have := h i c hi
      simp only [decide_eq_true_eq]
      omega
    | succ n =>
      have hn : a + ((n + 1 : Nat) : Int) = (a + 1) + (n : Int) := by omega
      have hle : b.revision ≤ (a + 1) + (n : Int) := by omega
      rw [hn, List.filter_cons, if_pos (by simpa using hle), ih htail n, List.take_succ_cons]

/-! ## Chronicles -/

/-- All that was committed up to `s`, in a run in which only text is put. -/
structure Chronicle (batches : List Batch) (s : Store) : Prop where
  sound : s.Sound
  texts : s.Texts
  text : ∀ b ∈ batches, ∀ e ∈ b.events, IsText e.record.key
  whole : ∃ names, (Store.ofMembers names).Advances batches s
  fed : ∀ f ∈ s.feeds, f.id < s.nextFeed
  apart : s.feeds.Pairwise fun f g => f.id ≠ g.id

/-- What the log has that an earlier store had not yet committed. -/
def Store.since (s s' : Store) : List Batch := s'.log.filter (s.revision < ·.revision)

namespace Chronicle

variable {batches : List Batch} {s s' : Store} {P : Event → Prop}

theorem ofMembers (names : List String) : Chronicle [] (.ofMembers names) where
  sound := .ofMembers names
  texts k r hr := by cases hr
  text b hb := by cases hb
  whole := ⟨names, .refl (.ofMembers names)⟩
  fed f hf := by cases hf
  apart := .nil

theorem numbered (h : Chronicle batches s) {i : Nat} {b : Batch} (hb : batches[i]? = some b) :
    b.revision = 1 + i + 1 := by
  obtain ⟨names, ha⟩ := h.whole
  exact ha.numbered i b hb

theorem rising (h : Chronicle batches s) : Rising batches := by
  obtain ⟨names, ha⟩ := h.whole
  exact ha.rising

theorem revision_le (h : Chronicle batches s) {b : Batch} (hb : b ∈ batches) : b.revision ≤ s.revision := by
  obtain ⟨i, hi⟩ := List.mem_iff_getElem?.1 hb
  have hn := h.numbered hi
  obtain ⟨names, ha⟩ := h.whole
  have hr : s.revision = 1 + batches.length := ha.revision
  have := (List.getElem?_eq_some_iff.1 hi).1
  omega

theorem log_eq (h : Chronicle batches s) : s.log = batches.filter (s.floor ≤ ·.revision) := by
  obtain ⟨names, ha⟩ := h.whole
  exact ha.log

theorem asOf_eq_viewAt (h : Chronicle batches s) {r : Int} (h1 : 1 ≤ r) (hf : s.floor ≤ r) (hr : r ≤ s.revision) :
    s.asOf r = viewAt batches r := by
  obtain ⟨names, ha⟩ := h.whole
  have hrev : s.revision = 1 + batches.length := ha.revision
  obtain ⟨n, rfl⟩ : ∃ n : Nat, r = 1 + n := ⟨(r - 1).toNat, by omega⟩
  have hs : s.asOf (1 + n) = (batches.take n).foldl Batch.applyTo .empty := ha.since n (by omega) hf
  rw [hs, viewAt, filter_eq_take (a := 1) (fun i b hb => h.numbered hb)]

theorem latest_eq_viewAt (h : Chronicle batches s) : s.latest = viewAt batches s.revision := by
  have hpos := h.sound.revision_pos
  rw [← h.sound.asOf_revision]
  exact h.asOf_eq_viewAt (by omega) h.sound.floor_le (Int.le_refl _)

/-! ## Moves -/

theorem viewAt_append (batches : List Batch) {r : Int} (hr : r ≤ s.revision) (s' : Store) :
    viewAt (batches ++ s.since s') r = viewAt batches r := by
  have hnone : (s.since s').filter (·.revision ≤ r) = [] := by
    apply List.filter_eq_nil_iff.2
    intro b hb
    have := (List.mem_filter.1 hb).2
    simp only [decide_eq_true_eq] at this ⊢
    omega
  rw [viewAt, List.filter_append, hnone, List.append_nil]
  rfl

theorem since_of_appends (h : s.Sound) {bs : List Batch} (ha : s.Appends bs s') (hl : s.Leads P s') :
    s.since s' = bs := by
  have hadv := ha.advances h hl
  have hold : s.log.filter (s.revision < ·.revision) = [] := by
    apply List.filter_eq_nil_iff.2
    intro b hb
    have := (h.logged b hb).2
    simp only [decide_eq_true_eq]
    omega
  have hnew : bs.filter (s.revision < ·.revision) = bs := by
    apply List.filter_eq_self.2
    intro b hb
    obtain ⟨i, hi⟩ := List.mem_iff_getElem?.1 hb
    have := hadv.numbered i b hi
    simp only [decide_eq_true_eq]
    omega
  rw [Store.since, ha.log, List.filter_append, hold, hnew, List.nil_append]

theorem logs (h : Chronicle batches s) (hl : s.Logs s') (hleads : s.Leads P s') :
    Chronicle (batches ++ s.since s') s' ∧ s.Appends (s.since s') s' := by
  obtain ⟨ht, bs, ha, hb⟩ := hl
  have hadv := ha.advances h.sound hleads
  obtain ⟨names, hw⟩ := h.whole
  obtain ⟨more, hm, hid, hp⟩ := ha.feeds
  rw [since_of_appends h.sound ha hleads]
  refine ⟨⟨hleads.1, ht, fun b hm => (List.mem_append.1 hm).elim (h.text b) (hb b), ⟨names, hw.trans hadv⟩, ?_, ?_⟩, ha⟩
  · intro f hf
    rw [hm] at hf
    rcases List.mem_append.1 hf with hf | hf
    · obtain ⟨g, hg, rfl⟩ := List.mem_map.1 hf
      rw [Feed.offerAll_id]
      exact Nat.lt_of_lt_of_le (h.fed g hg) ha.nextFeed
    · exact (hid f hf).2
  · rw [hm]
    refine List.pairwise_append.2 ⟨List.pairwise_map.2 (h.apart.imp fun hne => ?_), hp, fun f hf g hg => ?_⟩
    · rwa [Feed.offerAll_id, Feed.offerAll_id]
    · obtain ⟨d, hd, rfl⟩ := List.mem_map.1 hf
      rw [Feed.offerAll_id]
      exact Nat.ne_of_lt (Nat.lt_of_lt_of_le (h.fed d hd) (hid g hg).1)

theorem since_of_quiet (hl : s.Leads P s') (hr : s'.revision = s.revision) : s.since s' = [] := by
  apply List.filter_eq_nil_iff.2
  intro b hb
  have := (hl.1.logged b hb).2
  simp only [decide_eq_true_eq]
  omega

theorem quiet (h : Chronicle batches s) (hl : s.Leads P s') (hr : s'.revision = s.revision)
    (hlatest : s'.latest = s.latest) (hn : s'.nextFeed = s.nextFeed)
    (hfeeds : (s'.feeds.map (·.id)).Sublist (s.feeds.map (·.id))) :
    Chronicle (batches ++ s.since s') s' := by
  have hsince := since_of_quiet hl hr
  obtain ⟨names, hw⟩ := h.whole
  obtain ⟨hsound, bs, ha, _⟩ := hl
  have hbs : bs = [] := by
    have := ha.revision
    exact List.eq_nil_of_length_eq_zero (by omega)
  rw [hsince, List.append_nil]
  refine ⟨hsound, fun k r hc => ?_, h.text, ⟨names, ?_⟩, fun f hf => ?_, ?_⟩
  · rw [← Store.get?_latest, hlatest, Store.get?_latest] at hc
    exact h.texts k r hc
  · have := hw.trans (hbs ▸ ha)
    rwa [List.append_nil] at this
  · obtain ⟨g, hg, he⟩ := List.mem_map.1 (hfeeds.subset (List.mem_map_of_mem hf))
    rw [hn, ← he]
    exact h.fed g hg
  · exact List.pairwise_map.1 ((List.pairwise_map.2 h.apart).sublist hfeeds)

theorem same (h : Chronicle batches s) : Chronicle (batches ++ s.since s) s :=
  h.quiet (P := fun _ => True) (.refl h.sound) rfl rfl rfl (List.Sublist.refl _)

end Chronicle

/-! ## Feeds -/

namespace Store

variable {s s' : Store} {id : FeedId} {f : Feed} {bs : List Batch}

def feed? (s : Store) (id : FeedId) : Option Feed := s.feeds.find? (·.id = id)

theorem find?_map_of_id {g : Feed → Feed} (hg : ∀ f, (g f).id = f.id) (l : List Feed) (id : FeedId) :
    (l.map g).find? (·.id = id) = (l.find? (·.id = id)).map g := by
  rw [List.find?_map]
  congr 2
  funext f
  simp only [Function.comp_def, hg]

theorem feed?_appends (ha : s.Appends bs s') (hf : s.feed? id = some f) : s'.feed? id = some (f.offerAll bs) := by
  obtain ⟨more, hm, _⟩ := ha.feeds
  unfold feed? at *
  rw [hm, List.find?_append, find?_map_of_id (Feed.offerAll_id · bs), hf]
  rfl

theorem feed?_addFeed (s : Store) (span : Span) (live : Bool) (queue : List (Outcome Batch)) (id : FeedId) :
    (s.addFeed span live queue).2.feed? id =
      (s.feed? id).or (if s.nextFeed = id then some ⟨s.nextFeed, span, live, queue⟩ else none) := by
  unfold feed? addFeed
  rw [List.find?_append, List.find?_singleton]
  simp only [decide_eq_true_eq]

/-- Nothing is changed but feeds, and none is added. -/
def OnlyFeeds (s s' : Store) : Prop :=
  ∃ feeds, s' = { s with feeds } ∧ (feeds.map (·.id)).Sublist (s.feeds.map (·.id))

theorem OnlyFeeds.refl (s : Store) : s.OnlyFeeds s := ⟨s.feeds, rfl, .refl _⟩

theorem OnlyFeeds.trans {s s' s'' : Store} (h : s.OnlyFeeds s') (h' : s'.OnlyFeeds s'') : s.OnlyFeeds s'' := by
  obtain ⟨feeds, rfl, hsub⟩ := h
  obtain ⟨feeds', rfl, hsub'⟩ := h'
  exact ⟨feeds', rfl, hsub'.trans hsub⟩

theorem OnlyFeeds.log (h : s.OnlyFeeds s') : s'.log = s.log := by
  obtain ⟨_, rfl, _⟩ := h
  rfl

theorem OnlyFeeds.revision (h : s.OnlyFeeds s') : s'.revision = s.revision := by
  obtain ⟨_, rfl, _⟩ := h
  rfl

theorem OnlyFeeds.floor (h : s.OnlyFeeds s') : s'.floor = s.floor := by
  obtain ⟨_, rfl, _⟩ := h
  rfl

theorem requeue_id (id : FeedId) (queue : List (Outcome Batch)) (f : Feed) :
    (if f.id = id then { f with queue } else f).id = f.id := by
  split <;> rfl

theorem onlyFeeds_takeNext (s : Store) (id : FeedId) : s.OnlyFeeds (s.takeNext id).2 := by
  unfold takeNext
  split
  · exact .refl s
  · split
    · exact .refl s
    · refine ⟨_, rfl, ?_⟩
      simp only [List.map_map, Function.comp_def, requeue_id, List.Sublist.refl]

theorem onlyFeeds_closeFeed (s : Store) (id : FeedId) : s.OnlyFeeds (s.closeFeed id) :=
  ⟨_, rfl, List.Sublist.map _ List.filter_sublist⟩

theorem feed?_takeNext (s : Store) {other : FeedId} (h : other ≠ id) (hf : s.feed? id = some f) :
    (s.takeNext other).2.feed? id = some f := by
  have hid : f.id = id := by simpa using List.find?_some hf
  unfold takeNext
  split
  · exact hf
  · split
    · exact hf
    · unfold feed? at *
      rw [find?_map_of_id (requeue_id other _), hf, Option.map_some, if_neg (hid ▸ Ne.symm h)]

theorem takeNext_of_feed? (hf : s.feed? id = some f) :
    match f.queue with
    | [] => s.takeNext id = (if f.live then .empty else .ended, s)
    | x :: queue => (s.takeNext id).1 = .item x ∧ (s.takeNext id).2.feed? id = some { f with queue } := by
  have hid : f.id = id := by simpa using List.find?_some hf
  unfold feed? at hf
  unfold takeNext
  rw [hf]
  cases hq : f.queue with
  | nil => simp [hq]
  | cons x queue =>
    simp only [hq, feed?, true_and]
    rw [find?_map_of_id (requeue_id id _), hf, Option.map_some, if_pos hid]

theorem feed?_closeFeed (s : Store) {other : FeedId} (h : other ≠ id) (hf : s.feed? id = some f) :
    (s.closeFeed other).feed? id = some f := by
  unfold feed? closeFeed at *
  simp only [List.find?_filter]
  rw [← hf]
  congr 1
  funext g
  by_cases hg : g.id = id
  · simp [hg, Ne.symm h]
  · simp [hg]

end Store

theorem Chronicle.onlyFeeds {batches : List Batch} {s s' : Store} (h : Chronicle batches s) (ho : s.OnlyFeeds s') :
    Chronicle (batches ++ s.since s') s' := by
  obtain ⟨feeds, rfl, hsub⟩ := ho
  exact h.quiet (P := fun _ => True) (.still h.sound rfl rfl rfl rfl rfl rfl) rfl rfl rfl hsub

theorem Store.OnlyFeeds.since {s s' : Store} (ho : s.OnlyFeeds s') (h : s.Sound) : s.since s' = [] := by
  obtain ⟨feeds, rfl, _⟩ := ho
  exact Chronicle.since_of_quiet (P := fun _ => True) (.still h rfl rfl rfl rfl rfl rfl) rfl

theorem Chronicle.feed?_of_mem {batches : List Batch} {s : Store} (h : Chronicle batches s) {f : Feed}
    (hf : f ∈ s.feeds) : s.feed? f.id = some f := by
  unfold Store.feed?
  cases hfind : s.feeds.find? (·.id = f.id) with
  | none => simpa using List.find?_eq_none.1 hfind f hf
  | some g =>
    have hid : g.id = f.id := by simpa using List.find?_some hfind
    obtain ⟨i, hi, rfl⟩ := List.mem_iff_getElem.1 hf
    obtain ⟨j, hj, rfl⟩ := List.mem_iff_getElem.1 (List.mem_of_find?_eq_some hfind)
    have hij := List.pairwise_iff_getElem.1 h.apart
    rcases Nat.lt_trichotomy i j with hlt | rfl | hlt
    · exact absurd hid.symm (hij i j hi hj hlt)
    · rfl
    · exact absurd hid (hij j i hj hi hlt)

/-- What a feed has at first that is opened to tell of a revision and all later ones. -/
def Store.dueAt (s : Store) (span : Span) (start : Int) : List (Outcome Batch) :=
  if s.floor ≤ start then ((s.log.filter (start ≤ ·.revision)).filterMap (·.within? span)).map .ok
  else [.error (.revisionCompacted start s.floor)]

theorem Store.watch_eq (s : Store) (span : Span) {start : Int} (h : 0 < start) :
    s.watch span (some start) = s.addFeed span (decide (s.floor ≤ start)) (s.dueAt span start) := by
  have hf : (some start).filter (0 < ·) = some start := by simp [h]
  unfold watch dueAt
  rw [hf]
  by_cases hle : s.floor ≤ start
  · simp only [if_neg (Int.not_lt.2 hle), hle, decide_true, if_true]
    rfl
  · simp only [if_pos (Int.not_le.1 hle), hle, decide_false, if_false]

theorem Chronicle.feed?_answer_watch {batches : List Batch} {b b' : Backend} (hc : Chronicle batches b'.store) {now : Nat}
    {span : Span} {start : Int} (h : 0 < start) {id : FeedId}
    (ha : b.answer now (.watch span (some start)) = (.ok id, b')) :
    b'.store.feed? id = some ⟨id, span, decide (b'.store.floor ≤ start), b'.store.dueAt span start⟩ := by
  obtain ⟨hr, hs⟩ := Backend.store_answer_of_ok (congrArg (·.1) ha)
  rw [ha] at hs
  have hwatch := (b.store.expire now).watch_eq span h
  have hid : (b.store.expire now).nextFeed = id := by
    simp only [Store.answer, hwatch] at hr
    exact Except.ok.inj hr
  have hw : ((b.store.expire now).addFeed span (decide ((b.store.expire now).floor ≤ start))
      ((b.store.expire now).dueAt span start)).2 = b'.store := by
    rw [← hwatch]
    exact hs.symm
  have hmem : ⟨id, span, decide (b'.store.floor ≤ start), b'.store.dueAt span start⟩ ∈ b'.store.feeds := by
    rw [← hw, ← hid]
    exact List.mem_append_right _ List.mem_cons_self
  exact hc.feed?_of_mem hmem

theorem Store.compact_eq (s : Store) (revision : Int) :
    ∃ floor histories log, s.compact revision = { s with floor, histories, log } := by
  unfold compact
  split
  · exact ⟨s.floor, s.histories, s.log, rfl⟩
  · exact ⟨_, _, _, rfl⟩

theorem Store.revision_compact (s : Store) (revision : Int) : (s.compact revision).revision = s.revision := by
  obtain ⟨_, _, _, he⟩ := s.compact_eq revision
  rw [he]

/-! ## Moves -/

def Move.Puts : Move → Bytes → Prop
  | .call c, k => c.Puts k
  | _, _ => False

/-- The feed that a move takes from or closes. -/
def Move.Uses : Move → FeedId → Prop
  | .takeNext feed, id => feed = id
  | .closeFeed feed, id => feed = id
  | _, _ => False

namespace Backend

variable {b : Backend}

theorem posts_move (h : b.store.Sound) (now : Nat) (m : Move) :
    b.store.Posts (b.move now m).store ∨ (∃ revision, m = .compact revision) ∨ ∃ id, m.Uses id := by
  cases m with
  | call c =>
    rcases b.answer_cases now c with ⟨_, hs⟩ | ⟨_, hs⟩
    · show b.store.Posts (b.answer now c).2.store ∨ _
      rw [hs]
      exact .inl (.refl _)
    · show b.store.Posts (b.answer now c).2.store ∨ _
      rw [hs]
      exact .inl (Store.posts_answer h now c)
  | countLeases => exact .inl (Store.posts_endAll _ h)
  | compact revision => exact .inr (.inl ⟨revision, rfl⟩)
  | takeNext feed | closeFeed feed => exact .inr (.inr ⟨feed, rfl⟩)
  | fail rule | clearFaults => exact .inl (.refl _)
  | setResponsive _ _ | setLearner _ _ => exact .inl (.same rfl rfl rfl rfl)

theorem onlyFeeds_of_uses {m : Move} {id : FeedId} (hm : m.Uses id) (now : Nat) :
    b.store.OnlyFeeds (b.move now m).store := by
  cases m with
  | takeNext feed => exact b.store.onlyFeeds_takeNext feed
  | closeFeed feed => exact b.store.onlyFeeds_closeFeed feed
  | _ => exact hm.elim

/-- Nothing is committed and compacted at once. -/
theorem paced_move (h : b.store.Sound) (now : Nat) (m : Move) :
    (b.move now m).store.revision = b.store.revision ∨ (b.move now m).store.floor = b.store.floor := by
  rcases posts_move h now m with ⟨_, ha⟩ | ⟨revision, rfl⟩ | ⟨id, hm⟩
  · exact .inr ha.floor
  · exact .inl (b.store.revision_compact revision)
  · exact .inl (onlyFeeds_of_uses hm now).revision

theorem feed?_move (h : b.store.Sound) (now : Nat) {m : Move} {id : FeedId} (hm : ¬ m.Uses id) {f : Feed}
    (hf : b.store.feed? id = some f) :
    (b.move now m).store.feed? id = some (f.offerAll (b.store.since (b.move now m).store)) := by
  have hl := leads_move h now m
  have quiet : (b.move now m).store.revision = b.store.revision → (b.move now m).store.feed? id = some f →
      (b.move now m).store.feed? id = some (f.offerAll (b.store.since (b.move now m).store)) := by
    intro hr hf
    rw [Chronicle.since_of_quiet hl hr]
    exact hf
  rcases posts_move h now m with ⟨bs, ha⟩ | ⟨revision, rfl⟩ | ⟨other, ho⟩
  · rw [Chronicle.since_of_appends h ha hl]
    exact Store.feed?_appends ha hf
  · obtain ⟨floor, histories, log, he⟩ := b.store.compact_eq revision
    have hfeeds : (b.store.compact revision).feeds = b.store.feeds := by rw [he]
    apply quiet (b.store.revision_compact revision)
    unfold Store.feed? at *
    rw [← hf]
    exact congrArg (List.find? _) hfeeds
  · apply quiet (onlyFeeds_of_uses ho now).revision
    cases m with
    | takeNext feed => exact Store.feed?_takeNext _ hm hf
    | closeFeed feed => exact Store.feed?_closeFeed _ hm hf
    | _ => exact ho.elim

end Backend

namespace Chronicle

variable {batches : List Batch} {b : Backend}

theorem move (h : Chronicle batches b.store) (now : Nat) {m : Move} (hp : ∀ k, m.Puts k → IsText k) :
    Chronicle (batches ++ b.store.since (b.move now m).store) (b.move now m).store := by
  have hl := Backend.leads_move h.sound now m
  cases m with
  | call c =>
    rcases b.answer_cases now c with ⟨_, hs⟩ | ⟨_, hs⟩
    · show Chronicle (batches ++ b.store.since (b.answer now c).2.store) (b.answer now c).2.store
      rw [hs]
      exact h.same
    · have hlogs := Store.logs_answer h.sound h.texts now hp
      rw [← hs] at hlogs
      exact (h.logs hlogs hl).1
  | countLeases => exact (h.logs (Store.logs_endAll _ h.sound h.texts) hl).1
  | compact revision =>
    have hlatest := Store.latest_compact b.store revision
    obtain ⟨floor, histories, log, he⟩ := b.store.compact_eq revision
    have hs : (b.move now (.compact revision)).store = { b.store with floor, histories, log } := he
    rw [he] at hlatest
    rw [hs] at hl ⊢
    exact h.quiet hl rfl hlatest rfl (List.Sublist.refl _)
  | takeNext feed => exact h.onlyFeeds (b.store.onlyFeeds_takeNext feed)
  | closeFeed feed => exact h.onlyFeeds (b.store.onlyFeeds_closeFeed feed)
  | fail rule | clearFaults => exact h.same
  | setResponsive _ _ | setLearner _ _ => exact h.quiet hl rfl rfl rfl (List.Sublist.refl _)

end Chronicle

end Keyspace
