import Keyspace.Proofs.Run.Subscription
import Keyspace.Proofs.Run.Ways

/-!
# Events go on from what is there

A put counts on from the version that is there just before it, and only what is there is deleted; so it is for
each event of a batch, with the batch's own earlier events (`Event.Chained`). The same holds of
all that a run ever commits (`Succession.move`), so a put of version 1 is one of a key that was not there just
before it (`Event.Follows.fresh_iff`).
-/

namespace Keyspace

/-! ## Events -/

namespace Event

/-- What an event tells of its key in the view before it. -/
def Follows (v : SortedMap Bytes Record) (e : Event) : Prop :=
  match e.kind with
  | .put => e.record.version = (v.get? e.record.key).elim 1 (·.version + 1)
  | .delete => (v.get? e.record.key).isSome

/-- Each event follows the view that those before it leave. -/
def Chained (v : SortedMap Bytes Record) : List Event → Prop
  | [] => True
  | e :: events => e.Follows v ∧ Chained (e.applyTo v) events

/-- Versions count from 1. -/
def Counted (v : SortedMap Bytes Record) : Prop := ∀ k r, v.get? k = some r → 0 < r.version

variable {v : SortedMap Bytes Record} {e : Event} {l l' : List Event}

theorem chained_append : Chained v (l ++ l') ↔ Chained v l ∧ Chained (l.foldl applyTo v) l' := by
  induction l generalizing v with
  | nil => simp [Chained]
  | cons e l ih => simp only [List.cons_append, Chained, ih, List.foldl_cons, and_assoc]

theorem chained_concat : Chained v (l ++ [e]) ↔ Chained v l ∧ e.Follows (l.foldl applyTo v) := by
  rw [chained_append]
  simp [Chained]

theorem Counted.applyTo (hv : Counted v) (he : e.Follows v) : Counted (e.applyTo v) := by
  intro k r hr
  unfold Follows at he
  unfold Event.applyTo at hr
  cases hk : e.kind with
  | delete =>
    simp only [hk, SortedMap.get?_erase] at hr
    split at hr
    · cases hr
    · exact hv k r hr
  | put =>
    simp only [hk, SortedMap.get?_insert] at hr he
    split at hr
    · cases hr
      cases hw : v.get? e.record.key with
      | none => simp [he, hw]
      | some w =>
        have hpos := hv _ w hw
        rw [he, hw, Option.elim_some]
        omega
    · exact hv k r hr

theorem Chained.counted (h : Chained v l) (hv : Counted v) : Counted (l.foldl Event.applyTo v) := by
  induction l generalizing v with
  | nil => exact hv
  | cons e l ih => exact ih h.2 (hv.applyTo h.1)

/-- A put is of version 1 if its key is not there before it. -/
theorem Follows.fresh_iff (he : e.Follows v) (hv : Counted v) (hk : e.kind = .put) :
    e.record.version = 1 ↔ v.get? e.record.key = none := by
  unfold Follows at he
  rw [hk] at he
  simp only at he
  rw [he]
  cases hw : v.get? e.record.key with
  | none => simp
  | some w =>
    have hpos := hv _ w hw
    simp only [Option.elim_some, reduceCtorEq, iff_false]
    omega

end Event

/-! ## Commits -/

namespace Edit

variable {s : Store} {e : Edit}

/-- An edit whose events follow each other from the view that it began at. -/
structure Chains (s : Store) (e : Edit) : Prop where
  stands : e.Stands s
  chained : Event.Chained s.latest e.events

theorem Chains.put (h : e.Chains s) (hs : s.Sound) (key value : Bytes) (lease : Option Int) :
    (e.put key value lease).Chains s := by
  refine ⟨h.stands.put (Int.le_of_lt hs.revision_pos) (fun j hj => (hs.leased j hj).1) key value lease, ?_⟩
  refine Event.chained_concat.2 ⟨h.chained, ?_⟩
  show (e.recordOf key value lease).version = _
  rw [← h.stands.latest, Store.get?_latest]
  rfl

theorem Chains.remove (h : e.Chains s) (hs : s.Sound) (key : Bytes) : (e.remove key).Chains s := by
  refine ⟨h.stands.remove (fun j hj => (hs.leased j hj).1) key, ?_⟩
  cases hc : e.store.current key with
  | none =>
    rw [remove_of_absent hc]
    exact h.chained
  | some r =>
    rw [events_remove hc]
    refine Event.chained_concat.2 ⟨h.chained, ?_⟩
    show ((e.events.foldl Event.applyTo s.latest).get? key).isSome
    rw [← h.stands.latest, Store.get?_latest, hc]
    rfl

theorem Chains.removeAll (hs : s.Sound) (keys : List Bytes) : ∀ {e : Edit}, e.Chains s →
    (keys.foldl Edit.remove e).Chains s := by
  induction keys with
  | nil => exact fun h => h
  | cons key keys ih => exact fun h => ih (h.remove hs key)

theorem Chains.applyAll (hs : s.Sound) (ops : List Op) : ∀ {e : Edit}, e.Chains s → (e.applyAll ops).Chains s := by
  induction ops with
  | nil => exact fun h => h
  | cons op ops ih =>
    intro e h
    refine ih ?_
    cases op with
    | put key value lease => exact h.put hs key value lease
    | delete span => exact h.removeAll hs _

theorem chains_start (hs : s.Sound) : (start s).Chains s := ⟨hs.stands_start, trivial⟩

end Edit

/-! ## Ways -/

namespace Store

variable {s s' s'' : Store} {bs bs' : List Batch}

/-- The way from `s` to `s'`, on which the batches `bs` were committed, their events one after the other. -/
structure Continues (s : Store) (bs : List Batch) (s' : Store) : Prop where
  advances : s.Advances bs s'
  chained : Event.Chained s.latest (bs.flatMap (·.events))

theorem Continues.trans (h : s.Continues bs s') (h' : s'.Continues bs' s'') : s.Continues (bs ++ bs') s'' where
  advances := h.advances.trans h'.advances
  chained := by
    rw [List.flatMap_append, Event.chained_append, ← Batch.foldl_applyTo, ← h.advances.latest]
    exact ⟨h.chained, h'.chained⟩

/-- A way without events. -/
theorem Leads.continues (h : s.Leads (fun _ => False) s') : ∃ bs, s.Continues bs s' := by
  obtain ⟨_, bs, ha, hb⟩ := h
  have hnone : bs.flatMap (·.events) = [] := by
    apply List.eq_nil_iff_forall_not_mem.2
    intro e he
    obtain ⟨b, hm, he⟩ := List.mem_flatMap.1 he
    exact hb b hm e he
  exact ⟨bs, ha, hnone ▸ trivial⟩

end Store

theorem Edit.Chains.continues {s : Store} {e : Edit} (h : e.Chains s) (hs : s.Sound) :
    s.Continues e.batches e.commit := by
  refine ⟨h.stands.advances hs, ?_⟩
  have hevents : e.batches.flatMap (·.events) = e.events := by
    unfold Edit.batches
    by_cases he : e.events = [] <;> simp [he]
  rw [hevents]
  exact h.chained

namespace Store

theorem way_continues : Way Continues where
  trans h h' := h.trans h'
  silent h := h.continues
  commit {s} hs ops := by
    have hcommit : ((Edit.start s).applyAll ops).Chains s := .applyAll hs _ (Edit.chains_start hs)
    exact hcommit.continues hs

end Store

/-! ## Runs -/

namespace Backend

variable {b : Backend}

theorem continues_move (h : b.store.Sound) (now : Nat) (m : Move) :
    ∃ bs, b.store.Continues bs (b.move now m).store := Store.way_continues.move h now m

theorem since_of_advances (h : b.store.Sound) {now : Nat} {m : Move} {bs : List Batch}
    (ha : b.store.Advances bs (b.move now m).store) : b.store.since (b.move now m).store = bs := by
  have hl := leads_move h now m
  -- a move either commits nothing or leaves the floor, so that the log drops nothing
  rcases paced_move h now m with hr | hf
  · have hlen := ha.revision
    have hbs : bs = [] := List.eq_nil_of_length_eq_zero (by omega)
    rw [hbs, Chronicle.since_of_quiet hl hr]
  · have hlog := (advances_move h now m).log
    have hkept : ∀ {cs : List Batch}, b.store.Advances cs (b.move now m).store →
        (b.store.log ++ cs).filter ((b.move now m).store.floor ≤ ·.revision) = b.store.log ++ cs := by
      intro cs hcs
      rw [hf, List.filter_append, h.log_filter, List.filter_eq_self.2]
      intro c hc
      obtain ⟨i, hi⟩ := List.mem_iff_getElem?.1 hc
      have := hcs.numbered i c hi
      have := h.floor_le
      simp only [decide_eq_true_eq]
      omega
    rw [ha.log, hkept ha, hkept (advances_move h now m)] at hlog
    exact (List.append_cancel_left hlog).symm

theorem chained_move (h : b.store.Sound) (now : Nat) (m : Move) :
    Event.Chained b.store.latest ((b.store.since (b.move now m).store).flatMap (·.events)) := by
  obtain ⟨bs, ha, hc⟩ := continues_move h now m
  rwa [since_of_advances h ha]

end Backend

/-! ## Chronicles -/

/-- The batches before one of them tell the view at the revision before it. -/
theorem Rising.viewAt_before {bs more : List Batch} {b : Batch} (h : Rising (bs ++ b :: more)) :
    viewAt (bs ++ b :: more) (b.revision - 1) = bs.foldl Batch.applyTo .empty := by
  obtain ⟨_, hmore, hbs⟩ := List.pairwise_append.1 h
  have hbefore : bs.filter (·.revision ≤ b.revision - 1) = bs := by
    apply List.filter_eq_self.2
    intro d hd
    have := hbs d hd b List.mem_cons_self
    simp only [decide_eq_true_eq]
    omega
  have hrest : (b :: more).filter (·.revision ≤ b.revision - 1) = [] := by
    apply List.filter_eq_nil_iff.2
    intro d hd
    simp only [decide_eq_true_eq]
    rcases List.mem_cons.1 hd with rfl | hd
    · omega
    · have := (List.pairwise_cons.1 hmore).1 d hd
      omega
  rw [viewAt, List.filter_append, hbefore, hrest, List.append_nil]

/-- A chronicle whose events go on from each other. -/
structure Succession (batches : List Batch) (s : Store) : Prop where
  chronicle : Chronicle batches s
  chained : Event.Chained .empty (batches.flatMap (·.events))

namespace Succession

variable {batches : List Batch} {s s' : Store}

theorem ofMembers (names : List String) : Succession [] (.ofMembers names) := ⟨.ofMembers names, trivial⟩

theorem latest (h : Succession batches s) : s.latest = (batches.flatMap (·.events)).foldl Event.applyTo .empty := by
  obtain ⟨names, ha⟩ := h.chronicle.whole
  rw [ha.latest, Batch.foldl_applyTo]
  rfl

theorem move {b : Backend} (h : Succession batches b.store) (now : Nat) {m : Move} (hp : ∀ k, m.Puts k → IsText k) :
    Succession (batches ++ b.store.since (b.move now m).store) (b.move now m).store where
  chronicle := h.chronicle.move now hp
  chained := by
    rw [List.flatMap_append, Event.chained_append, ← h.latest]
    exact ⟨h.chained, Backend.chained_move h.chronicle.sound now m⟩

theorem onlyFeeds (h : Succession batches s) (ho : s.OnlyFeeds s') : Succession (batches ++ s.since s') s' := by
  refine ⟨h.chronicle.onlyFeeds ho, ?_⟩
  rw [ho.since h.chronicle.sound, List.append_nil]
  exact h.chained

/-- The events of a batch go on from the view at the revision before it. -/
theorem batch (h : Succession batches s) {b : Batch} (hb : b ∈ batches) :
    Event.Counted (viewAt batches (b.revision - 1)) ∧
      Event.Chained (viewAt batches (b.revision - 1)) b.events := by
  obtain ⟨hchronicle, hc⟩ := h
  obtain ⟨bs, more, rfl⟩ := List.append_of_mem hb
  rw [hchronicle.rising.viewAt_before, Batch.foldl_applyTo]
  rw [List.flatMap_append, List.flatMap_cons, Event.chained_append, Event.chained_append] at hc
  exact ⟨hc.1.counted fun k r hr => (nomatch hr), hc.2.1⟩

end Succession

end Keyspace
