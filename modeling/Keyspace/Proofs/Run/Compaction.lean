import Keyspace.Proofs.Store.Alike

/-!
# Compaction is not seen

Of two runs with the same moves at the same times, but that the one compacts more, neither has anything to
tell from the other than what is asked for below the floor (`compaction_unseen`).
-/

namespace Keyspace

/-! ## The other moves -/

namespace Store

variable {s t : Store} {refused : List FeedId}

theorem Sound.floor_compact_eq (h : s.Sound) (r : Int) : (s.compact r).floor = max s.floor (min r s.revision) := by
  have hle := h.floor_le
  by_cases hr : s.floor < r
  · rw [floor_compact s hr]
    omega
  · rw [compact_of_le (by omega)]
    omega

theorem Sound.log_compact (h : s.Sound) (r : Int) :
    (s.compact r).log = s.log.filter ((s.compact r).floor ≤ ·.revision) := by
  by_cases hr : s.floor < r
  · rw [floor_compact s hr, compact, if_neg (by omega)]
  · rw [compact_of_le (by omega), h.log_filter]

theorem filter_floor {log : List Batch} {n m : Int} (h : n ≤ m) :
    (log.filter (n ≤ ·.revision)).filter (m ≤ ·.revision) = log.filter (m ≤ ·.revision) := by
  rw [List.filter_filter]
  apply List.filter_congr
  intro b _
  rw [← Bool.decide_and, decide_eq_decide]
  omega

theorem Alike.compact (h : s.Alike t refused) (hs : s.Sound) (ht : t.Sound) {r n : Int}
    (hle : (s.compact r).floor ≤ (t.compact n).floor) : (s.compact r).Alike (t.compact n) refused := by
  have htf : t.floor ≤ (t.compact n).floor := (leads_compact (P := fun _ => True) ht n).floor_le
  have hlog : (t.compact n).log = (s.compact r).log.filter ((t.compact n).floor ≤ ·.revision) := by
    rw [ht.log_compact, h.log, hs.log_compact, filter_floor htf, filter_floor hle]
  have hpast : ∀ i, (t.compact n).floor ≤ i → (t.compact n).asOf i = (s.compact r).asOf i := by
    intro i hi
    rw [asOf_compact t n hi, asOf_compact s r (by omega), h.past i (by omega)]
  have hlatest : (t.compact n).latest = (s.compact r).latest := by
    rw [latest_compact, latest_compact, h.latest]
  obtain ⟨sfloor, shist, slog, hsc⟩ := s.compact_eq r
  obtain ⟨tfloor, thist, tlog, htc⟩ := t.compact_eq n
  rw [hsc, htc] at hle hlatest hpast hlog ⊢
  rw [htc] at htf
  exact ⟨h.revision, hle, hlatest, hpast, hlog, h.leases, h.nextLease, h.nextFeed, h.cluster, h.feeds,
    fun id hid f hf => (h.vain id hid f hf).mono htf, h.issued, h.fresh⟩

theorem feed?_of_takeNext_ne (s : Store) {id j : FeedId} (h : id ≠ j) : (s.takeNext id).2.feed? j = s.feed? j := by
  cases hf : s.feed? j with
  | some f => exact feed?_takeNext s h hf
  | none =>
    unfold takeNext
    split
    · exact hf
    · split
      · exact hf
      · unfold feed? at *
        rw [find?_map_of_id (requeue_id id _), hf]
        rfl

theorem feed?_of_takeNext_eq (s : Store) (id : FeedId) :
    (s.takeNext id).2.feed? id = (s.feed? id).map fun f => { f with queue := f.queue.tail } := by
  cases hf : s.feed? id with
  | none =>
    have hnone : s.feeds.find? (·.id = id) = none := hf
    unfold takeNext
    rw [hnone]
    exact hf
  | some f =>
    have ht := takeNext_of_feed? hf
    cases hq : f.queue with
    | nil =>
      rw [hq] at ht
      rw [ht, Option.map_some, hq, List.tail_nil, ← hq]
      exact hf
    | cons x queue =>
      rw [hq] at ht
      rw [ht.2, Option.map_some, hq, List.tail_cons]

theorem feed?_of_closeFeed (s : Store) (id j : FeedId) :
    (s.closeFeed id).feed? j = if j = id then none else s.feed? j := by
  unfold feed? closeFeed
  simp only [List.find?_filter]
  split
  · rename_i hj
    rw [List.find?_eq_none]
    intro f _
    simp [hj]
  · rename_i hj
    congr 1
    funext f
    by_cases hf : f.id = j
    · simp [hf, hj]
    · simp [hf]

theorem Alike.next (h : s.Alike t refused) {id : FeedId} (hid : id ∉ refused) :
    (t.takeNext id).1 = (s.takeNext id).1 := by
  have hf : t.feeds.find? (·.id = id) = s.feeds.find? (·.id = id) := h.feeds id hid
  unfold takeNext
  rw [hf]
  split
  · rfl
  · split <;> rfl

theorem Alike.takeNext (h : s.Alike t refused) (id : FeedId) :
    (s.takeNext id).2.Alike (t.takeNext id).2 refused := by
  have hfeeds : ∀ j, j ∉ refused → (t.takeNext id).2.feed? j = (s.takeNext id).2.feed? j := by
    intro j hj
    by_cases he : id = j
    · rw [he, feed?_of_takeNext_eq, feed?_of_takeNext_eq, h.feeds j hj]
    · rw [feed?_of_takeNext_ne t he, feed?_of_takeNext_ne s he, h.feeds j hj]
  have hvain : ∀ j ∈ refused, ∀ f, (t.takeNext id).2.feed? j = some f → f.Vain t.floor := by
    intro j hj f hf
    by_cases he : id = j
    · rw [he, feed?_of_takeNext_eq] at hf
      obtain ⟨g, hg, rfl⟩ := Option.map_eq_some_iff.1 hf
      obtain ⟨hl, hq⟩ := h.vain j hj g hg
      refine ⟨hl, .inl ?_⟩
      rcases hq with hq | ⟨r, n, _, _, _, hq⟩ <;> simp [hq]
    · rw [feed?_of_takeNext_ne t he] at hf
      exact h.vain j hj f hf
  have hfresh : ∀ j, t.nextFeed ≤ j → (t.takeNext id).2.feed? j = none := by
    intro j hj
    by_cases he : id = j
    · rw [he, feed?_of_takeNext_eq, h.fresh j hj]
      rfl
    · rw [feed?_of_takeNext_ne t he, h.fresh j hj]
  obtain ⟨sfeeds, hs, _⟩ := s.onlyFeeds_takeNext id
  obtain ⟨tfeeds, ht, _⟩ := t.onlyFeeds_takeNext id
  rw [hs] at hfeeds ⊢
  rw [ht] at hfeeds hvain hfresh ⊢
  exact { h with feeds := hfeeds, vain := hvain, fresh := hfresh }

theorem Alike.closeFeed (h : s.Alike t refused) (id : FeedId) :
    (s.closeFeed id).Alike (t.closeFeed id) refused :=
  { h with
    feeds := fun j hj => by rw [feed?_of_closeFeed, feed?_of_closeFeed, h.feeds j hj]
    vain := fun j hj f hf => by
      rw [feed?_of_closeFeed] at hf
      split at hf
      · cases hf
      · exact h.vain j hj f hf
    fresh := fun j hj => by rw [feed?_of_closeFeed, h.fresh j hj, ite_self] }

theorem Alike.updateHost (h : s.Alike t refused) (name : String) (f : Host → Host) :
    (s.updateHost name f).Alike (t.updateHost name f) refused :=
  { h with cluster := by simp only [Store.updateHost, h.cluster] }

theorem next_of_vain {id : FeedId} {floor : Int} (h : ∀ f, t.feed? id = some f → f.Vain floor) :
    (t.takeNext id).1 = .ended ∨
      ∃ r n, 0 < r ∧ r < n ∧ n ≤ floor ∧ (t.takeNext id).1 = .item (.error (.revisionCompacted r n)) := by
  unfold Store.takeNext
  cases hf : t.feeds.find? (·.id = id) with
  | none => exact .inl rfl
  | some f =>
    obtain ⟨hl, hq | ⟨r, n, h0, hn, hfl, hq⟩⟩ := h f hf
    · left
      simp [hq, hl]
    · right
      exact ⟨r, n, h0, hn, hfl, by simp [hq]⟩

end Store

/-! ## Runs -/

namespace Backend

/-- The second backend is the first one with more compacted. -/
structure Alike (b b' : Backend) (ids : List FeedId) : Prop where
  store : b.store.Alike b'.store ids
  faults : b'.faults = b.faults
  calls : b'.calls = b.calls

variable {b b' : Backend} {ids : List FeedId}

/-- The feed that a move is refused, as it would tell of what is compacted. -/
def refuses (b : Backend) : Move → List FeedId
  | .call c => if (meetFault c.name b.faults).isSome then [] else b.store.refuses c
  | _ => []

/-- The feeds that were refused in a run. -/
def refused (b : Backend) : List (Nat × Move) → List FeedId
  | [] => []
  | (now, m) :: l => (b.move now m).refused l ++ b.refuses m

theorem Alike.move (h : b.Alike b' ids) (hb : b.store.Sound) (hb' : b'.store.Sound) (now : Nat) (m : Move) :
    (b.move now m).Alike (b'.move now m) (b'.refuses m ++ ids) := by
  cases m with
  | call c =>
    simp only [Backend.move, Backend.answer, refuses, h.faults]
    cases meetFault c.name b.faults with
    | none => exact ⟨(h.store.answer hb hb' now c).2, rfl, congrArg (c.name :: ·) h.calls⟩
    | some k => exact ⟨h.store, rfl, congrArg (c.name :: ·) h.calls⟩
  | compact r =>
    refine ⟨h.store.compact hb hb' ?_, h.faults, h.calls⟩
    have := h.store.floor
    have := h.store.revision
    rw [hb.floor_compact_eq, hb'.floor_compact_eq]
    omega
  | fail rule => exact ⟨h.store, congrArg (· ++ [rule]) h.faults, h.calls⟩
  | clearFaults => exact ⟨h.store, rfl, h.calls⟩
  | countLeases => exact ⟨h.store.expire hb hb' now, h.faults, h.calls⟩
  | takeNext feed => exact ⟨h.store.takeNext feed, h.faults, h.calls⟩
  | closeFeed feed => exact ⟨h.store.closeFeed feed, h.faults, h.calls⟩
  | setResponsive member responsive => exact ⟨h.store.updateHost member _, h.faults, h.calls⟩
  | setLearner member learner => exact ⟨h.store.updateHost member _, h.faults, h.calls⟩

theorem Alike.compact (h : b.Alike b' ids) (hb : b.store.Sound) (hb' : b'.store.Sound) (now : Nat) (r : Int) :
    b.Alike (b'.move now (.compact r)) ids := by
  -- The first store may be taken to be compacted to where it is.
  have hs : b.store.compact b.store.floor = b.store := Store.compact_of_le (Int.le_refl _)
  have hc := h.store.compact hb hb' (r := b.store.floor) (n := r) <| by
    have := h.store.floor
    rw [hs, hb'.floor_compact_eq]
    omega
  rw [hs] at hc
  exact ⟨hc, h.faults, h.calls⟩

end Backend

/-- The second run makes the moves of the first one, and may compact between them. -/
inductive Prunes : List (Nat × Move) → List (Nat × Move) → Prop
  | nil : Prunes [] []
  | both {l l' : List (Nat × Move)} (now : Nat) (m : Move) (h : Prunes l l') : Prunes ((now, m) :: l) ((now, m) :: l')
  | more {l l' : List (Nat × Move)} (now : Nat) (r : Int) (h : Prunes l l') : Prunes l ((now, .compact r) :: l')

namespace Backend

variable {b b' : Backend} {ids : List FeedId}

theorem Alike.moves {l l' : List (Nat × Move)} (h : Prunes l l') : ∀ {b b' : Backend} {ids : List FeedId},
    b.Alike b' ids → b.store.Sound → b'.store.Sound →
      (b.moves l).Alike (b'.moves l') (b'.refused l' ++ ids) := by
  induction h with
  | nil => exact fun ha _ _ => ha
  | both now m _ ih =>
    intro b b' ids ha hb hb'
    have hm := ih (ha.move hb hb' now m) (leads_move hb now m).1 (leads_move hb' now m).1
    rwa [← List.append_assoc] at hm
  | more now r _ ih =>
    intro b b' ids ha hb hb'
    have hm := ih (ha.compact hb hb' now r) hb (leads_move hb' now (.compact r)).1
    rw [Backend.refused, List.append_assoc]
    exact hm

/-- That the second backend has more compacted is seen below its floor only. -/
structure Unseen (b b' : Backend) (ids : List FeedId) : Prop where
  answers : ∀ now c, meetFault c.name b'.faults = none →
    Likewise b'.store.floor c (b.answer now c).1 (b'.answer now c).1
  faulted : ∀ now c, (meetFault c.name b'.faults).isSome → (b'.answer now c).1 = (b.answer now c).1
  leases : ∀ now, (b'.leaseCount now).1 = (b.leaseCount now).1
  batches : ∀ id, id ∉ ids → (b'.store.takeNext id).1 = (b.store.takeNext id).1
  /-- A watch from below the floor gets to hear that, -/
  refusal : ∀ now span r id, 0 < r → r < b'.store.floor → (b'.answer now (.watch span (some r))).1 = .ok id →
    ((b'.move now (.call (.watch span (some r)))).store.takeNext id).1 =
      .item (.error (.revisionCompacted r b'.store.floor))
  /-- and nothing else. -/
  refused : ∀ id ∈ ids, (b'.store.takeNext id).1 = .ended ∨ ∃ r n, 0 < r ∧ r < n ∧ n ≤ b'.store.floor ∧
    (b'.store.takeNext id).1 = .item (.error (.revisionCompacted r n))
  floor_le : b'.store.floor ≤ b'.store.revision
  floor_mono : ∀ now m, b'.store.floor ≤ (b'.move now m).store.floor

theorem Alike.refusal (h : b.Alike b' ids) (hb : b.store.Sound) (hb' : b'.store.Sound) {now : Nat} {span : Span}
    {r : Int} {id : FeedId} (h0 : 0 < r) (hr : r < b'.store.floor)
    (ha : (b'.answer now (.watch span (some r))).1 = .ok id) :
    ((b'.move now (.call (.watch span (some r)))).store.takeNext id).1 =
      .item (.error (.revisionCompacted r b'.store.floor)) := by
  obtain ⟨ha, hs⟩ := store_answer_of_ok ha
  obtain ⟨t, ht⟩ : ∃ t, b'.store.expire now = t := ⟨_, rfl⟩
  have hfresh : ∀ j, t.nextFeed ≤ j → t.feed? j = none := ht ▸ (h.store.expire hb hb' now).fresh
  have hfloor : t.floor = b'.store.floor := ht ▸ (Store.kept_endAll (b'.store.due now) hb').1
  have hwatch : t.watch span (some r) = t.addFeed span false [.error (.revisionCompacted r b'.store.floor)] := by
    have hlive : decide (t.floor ≤ r) = false := decide_eq_false (by omega)
    have hqueue : t.dueAt span r = [.error (.revisionCompacted r t.floor)] := if_neg (by omega)
    rw [Store.watch_eq t span h0, hlive, hqueue, hfloor]
  simp only [Store.answer, ht, hwatch] at ha hs
  have hid : t.nextFeed = id := Except.ok.inj ha
  have hfeed : (t.addFeed span false [.error (.revisionCompacted r b'.store.floor)]).2.feed? id =
      some ⟨id, span, false, [.error (.revisionCompacted r b'.store.floor)]⟩ := by
    rw [Store.feed?_addFeed, if_pos hid, hfresh id (Nat.le_of_eq hid), hid]
    rfl
  show ((b'.answer now (.watch span (some r))).2.store.takeNext id).1 = _
  rw [hs]
  exact (Store.takeNext_of_feed? hfeed).1

theorem Alike.unseen (h : b.Alike b' ids) (hb : b.store.Sound) (hb' : b'.store.Sound) : b.Unseen b' ids where
  answers now c hc := by
    have hc' : meetFault c.name b.faults = none := h.faults ▸ hc
    rw [(answer_of_unfaulted now hc).1, (answer_of_unfaulted now hc').1]
    exact (h.store.answer hb hb' now c).1
  faulted now c hc := by
    obtain ⟨⟨k, rules⟩, hk⟩ := Option.isSome_iff_exists.1 hc
    have hk' : meetFault c.name b.faults = some (k, rules) := h.faults ▸ hk
    simp only [Backend.answer, hk, hk']
  leases now := congrArg SortedMap.size (h.store.expire hb hb' now).leases
  batches _ hid := h.store.next hid
  refusal _ _ _ _ h0 hr ha := h.refusal hb hb' h0 hr ha
  refused id hid := Store.next_of_vain (h.store.vain id hid)
  floor_le := hb'.floor_le
  floor_mono now m := (leads_move hb' now m).floor_le

theorem compaction_unseen (names : List String) {l l' : List (Nat × Move)} (h : Prunes l l') :
    ((ofMembers names).moves l).Unseen ((ofMembers names).moves l') ((ofMembers names).refused l') := by
  have start : (ofMembers names).Alike (ofMembers names) [] := ⟨.ofMembers names, rfl, rfl⟩
  have ha := start.moves h (.ofMembers names) (.ofMembers names)
  rw [List.append_nil] at ha
  exact ha.unseen (leads_moves l (.ofMembers names)).1 (leads_moves l' (.ofMembers names)).1

/-- A key that is deleted, compacted away and put again, and two watches, of which the one is refused. -/
theorem compaction_unseen_recreated :
    let put : Nat × Move := (0, .call (.put [1] [10] none))
    let gone : Nat × Move := (0, .call (.deleteRange ⟨[1], none⟩))
    let watch (r : Int) : Nat × Move := (0, .call (.watch ⟨[1], none⟩ (some r)))
    let l := [put, gone, put, watch 2, watch 4]
    let l' := [put, (0, .compact 2), gone, (0, .compact 3), put, watch 2, watch 4]
    let b := (ofMembers ["a"]).moves l
    let b' := (ofMembers ["a"]).moves l'
    Prunes l l' ∧ b.Unseen b' ((ofMembers ["a"]).refused l') ∧ (ofMembers ["a"]).refused l' = [0] ∧
      b'.store.floor = 3 ∧ b'.store.histories.size = 1 ∧ b.store.histories ≠ b'.store.histories := by
  intro put gone watch l l' b b'
  have h : Prunes l l' :=
    .both _ _ (.more _ _ (.both _ _ (.more _ _ (.both _ _ (.both _ _ (.both _ _ .nil))))))
  exact ⟨h, compaction_unseen _ h, by decide +kernel, by decide +kernel, by decide +kernel, by decide +kernel⟩

end Backend

end Keyspace
