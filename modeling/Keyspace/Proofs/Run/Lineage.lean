import Keyspace.Proofs.Run.Ways
import Keyspace.Proofs.Store.Succession

/-!
# What records tell of their keys

A record tells of the puts of its key since the key was last deleted: how many there were, and at which revisions the
first and the last of them were made (`Record.Tells`). It is so of every key that is there, and of every put that was
ever committed, whatever else a run does (`Backend.metadata_truthful`).
-/

namespace Keyspace

/-! ## Deeds -/

/-- The events of batches, each with the revision that it was committed at. -/
def Batch.deeds (bs : List Batch) : List (Int × Event) := bs.flatMap fun b => b.events.map (b.revision, ·)

/-- The revisions of the puts of a key since its last deletion. -/
def putsOf (k : Bytes) (deeds : List (Int × Event)) : List Int :=
  ((deeds.filter (·.2.record.key = k)).reverse.takeWhile (·.2.kind = .put)).reverse.map (·.1)

structure Record.Tells (r : Record) (puts : List Int) : Prop where
  version : r.version = puts.length
  create : puts.head? = some r.createRevision
  mod : puts.getLast? = some r.modRevision

theorem Batch.deeds_append (bs bs' : List Batch) : deeds (bs ++ bs') = deeds bs ++ deeds bs' := List.flatMap_append

section
variable {k : Bytes} {deeds : List (Int × Event)} {d : Int × Event}

theorem putsOf_concat_put (hk : d.2.record.key = k) (hd : d.2.kind = .put) :
    putsOf k (deeds ++ [d]) = putsOf k deeds ++ [d.1] := by
  simp [putsOf, List.filter_append, hk, hd]

theorem putsOf_concat_delete (hk : d.2.record.key = k) (hd : d.2.kind = .delete) : putsOf k (deeds ++ [d]) = [] := by
  simp [putsOf, List.filter_append, hk, hd]

theorem putsOf_append_of_ne {more : List (Int × Event)} (h : ∀ d ∈ more, d.2.record.key ≠ k) :
    putsOf k (deeds ++ more) = putsOf k deeds := by
  have hnone : more.filter (·.2.record.key = k) = [] := List.filter_eq_nil_iff.2 fun d hd => by simpa using h d hd
  rw [putsOf, List.filter_append, hnone, List.append_nil]
  rfl

theorem putsOf_concat_of_ne (hk : d.2.record.key ≠ k) : putsOf k (deeds ++ [d]) = putsOf k deeds :=
  putsOf_append_of_ne (List.forall_mem_singleton.2 hk)

theorem mem_putsOf {n : Int} (h : n ∈ putsOf k deeds) : ∃ d ∈ deeds, d.1 = n := by
  obtain ⟨d, hd, rfl⟩ := List.mem_map.1 h
  have hd := (List.takeWhile_sublist _).subset (List.mem_reverse.1 hd)
  exact ⟨d, (List.mem_filter.1 (List.mem_reverse.1 hd)).1, rfl⟩

/-- A record that goes on from one that tells of the puts tells of one more. -/
theorem Record.Tells.concat {r r' : Record} {puts : List Int} (h : r.Tells puts) {n : Int}
    (hv : r'.version = r.version + 1) (hc : r'.createRevision = r.createRevision) (hm : r'.modRevision = n) :
    r'.Tells (puts ++ [n]) where
  version := by rw [hv, h.version, List.length_append]; rfl
  create := by rw [List.head?_append, h.create, hc]; rfl
  mod := by rw [List.getLast?_concat, hm]

theorem Record.tells_singleton {r : Record} {n : Int} (hv : r.version = 1) (hc : r.createRevision = n)
    (hm : r.modRevision = n) : r.Tells [n] := ⟨hv, congrArg some hc.symm, congrArg some hm.symm⟩

end

/-! ## Views -/

/-- The records of a view tell of their keys, and so did those of all puts when they were made. -/
structure Truthful (deeds : List (Int × Event)) (v : SortedMap Bytes Record) : Prop where
  absent : ∀ k, v.get? k = none → putsOf k deeds = []
  present : ∀ k r, v.get? k = some r → r.Tells (putsOf k deeds)
  written : ∀ (i : Nat) d, deeds[i]? = some d → d.2.kind = .put →
    d.2.record.Tells (putsOf d.2.record.key (deeds.take i) ++ [d.1])

namespace Truthful

variable {deeds : List (Int × Event)} {v : SortedMap Bytes Record} {n : Int} {r : Record}

theorem empty : Truthful [] .empty := ⟨fun _ _ => rfl, nofun, nofun⟩

theorem written_concat (h : Truthful deeds v) {d : Int × Event}
    (hd : d.2.kind = .put → d.2.record.Tells (putsOf d.2.record.key deeds ++ [d.1])) (i : Nat) (x : Int × Event)
    (hx : (deeds ++ [d])[i]? = some x) (hput : x.2.kind = .put) :
    x.2.record.Tells (putsOf x.2.record.key ((deeds ++ [d]).take i) ++ [x.1]) := by
  by_cases hi : i < deeds.length
  · rw [List.getElem?_append_left hi] at hx
    rw [List.take_append_of_le_length (Nat.le_of_lt hi)]
    exact h.written i x hx hput
  · have hlt := (List.getElem?_eq_some_iff.1 hx).1
    have hi : i = deeds.length := by
      rw [List.length_append, List.length_singleton] at hlt
      omega
    subst hi
    rw [List.getElem?_concat_length] at hx
    cases hx
    rw [List.take_left' rfl]
    exact hd hput

theorem put (h : Truthful deeds v) (hr : r.Tells (putsOf r.key deeds ++ [n])) :
    Truthful (deeds ++ [(n, ⟨.put, r⟩)]) (v.insert r.key r) where
  absent k hk := by
    rw [SortedMap.get?_insert] at hk
    split at hk
    · cases hk
    · rename_i hne
      rw [putsOf_concat_of_ne hne]
      exact h.absent k hk
  present k r' hr' := by
    rw [SortedMap.get?_insert] at hr'
    split at hr'
    · rename_i hk
      cases hr'
      rw [putsOf_concat_put hk rfl]
      exact hk ▸ hr
    · rename_i hne
      rw [putsOf_concat_of_ne hne]
      exact h.present k r' hr'
  written := h.written_concat fun _ => hr

theorem delete (h : Truthful deeds v) (n : Int) (r : Record) :
    Truthful (deeds ++ [(n, ⟨.delete, r⟩)]) (v.erase r.key) where
  absent k hk := by
    rw [SortedMap.get?_erase] at hk
    by_cases hkey : r.key = k
    · exact putsOf_concat_delete hkey rfl
    · rw [if_neg hkey] at hk
      rw [putsOf_concat_of_ne hkey]
      exact h.absent k hk
  present k r' hr' := by
    rw [SortedMap.get?_erase] at hr'
    split at hr'
    · cases hr'
    · rename_i hne
      rw [putsOf_concat_of_ne hne]
      exact h.present k r' hr'
  written := h.written_concat nofun

theorem deleteAll (keys : List Bytes) : ∀ {deeds : List (Int × Event)} {v : SortedMap Bytes Record},
    Truthful deeds v → Truthful (deeds ++ keys.map fun k => (n, ⟨.delete, ⟨k, [], 0, n, 0, 0⟩⟩))
      (keys.foldl SortedMap.erase v) := by
  induction keys with
  | nil =>
    intro deeds v h
    rw [List.map_nil, List.append_nil]
    exact h
  | cons key keys ih =>
    intro deeds v h
    have hnext := ih (h.delete n ⟨key, [], 0, n, 0, 0⟩)
    rwa [List.append_assoc] at hnext

end Truthful

/-! ## Writing -/

namespace Draft

variable {past : List (Int × Event)} {d : Draft}

/-- The events so far, at the revision of the draft. -/
def deeds (d : Draft) : List (Int × Event) := d.events.map (d.revision, ·)

theorem tells_recordOf (h : Truthful past d.view) (key value : Bytes) (lease : Option Int) :
    (d.recordOf key value lease).Tells (putsOf key past ++ [d.revision]) := by
  cases hv : d.view.get? key with
  | none =>
    rw [h.absent key hv]
    exact Record.tells_singleton (by simp [recordOf, hv]) (by simp [recordOf, hv]) rfl
  | some r => exact (h.present key r hv).concat (by simp [recordOf, hv]) (by simp [recordOf, hv]) rfl

theorem truthful_put (h : Truthful (past ++ d.deeds) d.view) (key value : Bytes) (lease : Option Int) :
    Truthful (past ++ (d.put key value lease).deeds) (d.put key value lease).view := by
  have hput := h.put (tells_recordOf h key value lease)
  rw [List.append_assoc] at hput
  have hdeeds : (d.put key value lease).deeds = d.deeds ++ [(d.revision, ⟨.put, d.recordOf key value lease⟩)] :=
    List.map_append
  rw [hdeeds]
  exact hput

theorem truthful_delete (h : Truthful (past ++ d.deeds) d.view) (span : Span) :
    Truthful (past ++ (d.delete span).deeds) (d.delete span).view := by
  have hdelete := h.deleteAll (n := d.revision) (d.present span)
  have hview : (d.present span).foldl SortedMap.erase d.view = (d.delete span).view := by
    refine SortedMap.ext_get? fun k => ?_
    show _ = (d.view.filter fun k _ => !span.contains k).get? k
    have hmem : k ∈ d.present span ↔ span.contains k = true ∧ (d.view.get? k).isSome := by
      rw [present, SortedMap.mem_keys_iff, SortedMap.get?_filter]
      cases d.view.get? k <;> simp
    rw [SortedMap.get?_foldl_erase, SortedMap.get?_filter]
    simp only [hmem]
    cases d.view.get? k <;> cases span.contains k <;> simp [Option.filter]
  have hdeeds : (d.delete span).deeds =
      d.deeds ++ (d.present span).map fun k => (d.revision, ⟨.delete, ⟨k, [], 0, d.revision, 0, 0⟩⟩) := by
    simp only [deeds, delete, List.map_append, List.map_map]
    rfl
  rw [hview, List.append_assoc, ← hdeeds] at hdelete
  exact hdelete

theorem truthful_applyAll (ops : List Op) : ∀ {d : Draft}, Truthful (past ++ d.deeds) d.view →
    Truthful (past ++ (d.applyAll ops).deeds) (d.applyAll ops).view := by
  induction ops with
  | nil => exact fun h => h
  | cons op ops ih =>
    intro d h
    refine ih ?_
    cases op with
    | put key value lease => exact truthful_put h key value lease
    | delete span => exact truthful_delete h span

end Draft

namespace Store

/-- The way from `s` to `s'`, on which the batches `bs` were committed and what records tell stays true. -/
structure Accounts (s : Store) (bs : List Batch) (s' : Store) : Prop where
  advances : s.Advances bs s'
  truthful : ∀ past, Truthful past s.latest → Truthful (past ++ Batch.deeds bs) s'.latest

theorem accounts_commit {s : Store} (h : s.Sound) (ops : List Op) :
    s.Accounts ((Edit.start s).applyAll ops).batches (s.commit ops) where
  advances := (h.stands_applyAll ops).advances h
  truthful past hpast := by
    have hdraft : ((Edit.start s).applyAll ops).draft = s.draft.applyAll ops := Edit.draft_applyAll ops _
    have hdeeds : Batch.deeds ((Edit.start s).applyAll ops).batches = (s.draft.applyAll ops).deeds := by
      rw [← hdraft]
      unfold Edit.batches
      by_cases he : ((Edit.start s).applyAll ops).events = []
      · simp [he, Batch.deeds, Draft.deeds, Edit.draft]
      · simp [he, Batch.deeds, Draft.deeds, Edit.draft]
    rw [hdeeds, (commits_commit h ops).latest]
    refine Draft.truthful_applyAll ops ?_
    rw [show s.draft.deeds = [] from rfl, List.append_nil]
    exact hpast

theorem way_accounts : Way Accounts where
  trans {s t u bs bs'} h h' := ⟨h.advances.trans h'.advances, fun past hpast => by
    rw [Batch.deeds_append, ← List.append_assoc]
    exact h'.truthful _ (h.truthful past hpast)⟩
  silent := by
    rintro s t ⟨_, bs, ha, hb⟩
    have hevents : ∀ b ∈ bs, b.events = [] := fun b hm => List.eq_nil_iff_forall_not_mem.2 fun e he => hb b hm e he
    refine ⟨bs, ha, fun past hpast => ?_⟩
    have hdeeds : Batch.deeds bs = [] :=
      List.flatMap_eq_nil_iff.2 fun b hm => by rw [hevents b hm, List.map_nil]
    have hlatest : t.latest = s.latest := by
      rw [ha.latest, Batch.foldl_applyTo, List.flatMap_eq_nil_iff.2 hevents, List.foldl_nil]
    rw [hdeeds, List.append_nil, hlatest]
    exact hpast
  commit := accounts_commit

end Store

/-! ## Runs -/

namespace Backend

theorem truthful_moves (l : List (Nat × Move)) : ∀ {b : Backend} {past : List (Int × Event)}, b.store.Sound →
    Truthful past b.store.latest → Truthful (past ++ Batch.deeds (b.committed l)) (b.moves l).store.latest := by
  induction l with
  | nil =>
    intro b past _ hpast
    rw [committed, Batch.deeds, List.flatMap_nil, List.append_nil]
    exact hpast
  | cons m l ih =>
    intro b past h hpast
    obtain ⟨bs, hbs⟩ := Store.way_accounts.move h m.1 m.2
    have hnext := ih (leads_move h m.1 m.2).1 (hbs.truthful past hpast)
    rw [← since_of_advances h hbs.advances, List.append_assoc, ← Batch.deeds_append] at hnext
    exact hnext

end Backend

/-! ## What is asked of records -/

theorem Condition.holds_keyPresent {s : Store} (h : s.Sound) (key : String) (present : Bool) :
    (keyPresent key present).holds (s.current (Utf8.encode key)) = true ↔
      (s.current (Utf8.encode key)).isSome = present := by
  cases hc : s.current (Utf8.encode key) with
  | none => cases present <;> simp [holds, keyPresent, Relation.holds, KeyOrder.lt]
  | some r =>
    obtain ⟨n, _, hfits⟩ := h.dated.current hc
    have hpos := hfits.version_pos
    cases present <;> simp [holds, keyPresent, Relation.holds, KeyOrder.lt, hpos, Int.ne_of_gt hpos]

namespace Backend

variable {b : Backend}

theorem succeeded_of_answer_txn {now : Nat} {t : Txn} {a : TxnAnswer} (ha : (b.answer now (.txn t)).1 = .ok a) :
    a.succeeded = (b.store.expire now).satisfies t.conditions := by
  have ha := (store_answer_of_ok ha).1
  rw [Store.answer_txn] at ha
  split at ha
  · cases ha
  · cases ha
    exact (Store.satisfies_eq _ t).symm

theorem created_of_answer_range (h : b.store.Sound) {now : Nat} {span : Span} {revision : Option Int} {a : RangeAnswer}
    (ha : (b.answer now (.range span revision)).1 = .ok a) : ∀ r ∈ a.records, r.createRevision ≠ 0 := by
  have ha := (store_answer_of_ok ha).1
  have hx := (Store.leads_expire h now).1
  simp only [Store.answer, Store.read_eq] at ha
  cases hr : (b.store.expire now).readRevision revision with
  | error f => rw [hr] at ha; cases ha
  | ok n =>
    rw [hr] at ha
    cases ha
    intro r hmem
    obtain ⟨⟨k, x⟩, he, rfl⟩ := List.mem_map.1 hmem
    have hget := (SortedMap.get?_eq_some_iff _ _ _).2 he
    rw [SortedMap.get?_filter] at hget
    exact hx.dated.created_of_asOf (Option.filter_eq_some_iff.1 hget).1

/-- What a backend has to say of its keys, where `batches` are all that was ever committed. -/
structure Faithful (batches : List Batch) (b : Backend) : Prop where
  absent : ∀ k, b.store.current k = none → putsOf k (Batch.deeds batches) = []
  present : ∀ k r, b.store.current k = some r → r.Tells (putsOf k (Batch.deeds batches)) ∧ 1 ≤ r.version ∧
    1 < r.createRevision ∧ r.createRevision ≤ r.modRevision ∧ r.modRevision ≤ b.store.revision
  written : ∀ (i : Nat) d, (Batch.deeds batches)[i]? = some d → d.2.kind = .put →
    d.2.record.Tells (putsOf d.2.record.key ((Batch.deeds batches).take i) ++ [d.1])
  /-- Versions start again after a deletion, at the same revision too. -/
  recreated : ∀ before d between e after, Batch.deeds batches = before ++ [d] ++ between ++ e :: after →
    d.2.record.key = e.2.record.key → d.2.kind = .delete → e.2.kind = .put →
    (∀ x ∈ between, x.2.record.key ≠ e.2.record.key) → e.2.record.version = 1 ∧ e.2.record.createRevision = e.1
  evaluated : ∀ now key present, ((Condition.keyPresent key present).holds
    ((b.store.expire now).current (Utf8.encode key)) = true ↔
      ((b.store.expire now).current (Utf8.encode key)).isSome = present)
  succeeded : ∀ now key present t a, t.conditions = [.keyPresent key present] →
    (b.answer now (.txn t)).1 = .ok a →
      (a.succeeded = true ↔ ((b.store.expire now).current (Utf8.encode key)).isSome = present)
  created : ∀ now span revision a, (b.answer now (.range span revision)).1 = .ok a →
    ∀ r ∈ a.records, r.createRevision ≠ 0

theorem faithful_of_truthful {s : Store} {batches : List Batch} (h : b.store.Sound)
    (ha : s.Advances batches b.store) (hpos : 1 ≤ s.revision)
    (ht : Truthful (Batch.deeds batches) b.store.latest) : Faithful batches b where
  absent k hk := ht.absent k (by rwa [Store.get?_latest])
  present k r hr := by
    have htells := ht.present k r (by rwa [Store.get?_latest])
    obtain ⟨n, hn, hfits⟩ := h.dated.current hr
    have hmod := hfits.modRevision
    have hcreate := hfits.create_le
    have hversion := hfits.version_pos
    obtain ⟨d, hd, hfirst⟩ := mem_putsOf (List.mem_of_head? htells.create)
    obtain ⟨c, hc, hd⟩ := List.mem_flatMap.1 hd
    obtain ⟨e, _, rfl⟩ := List.mem_map.1 hd
    obtain ⟨i, hi⟩ := List.mem_iff_getElem?.1 hc
    have hnumber := ha.numbered i c hi
    refine ⟨htells, by omega, ?_, by omega, by omega⟩
    rw [← hfirst]
    simp only
    omega
  written := ht.written
  recreated before d between e after hdeeds hkey hd he hbetween := by
    have htells := ht.written (before ++ [d] ++ between).length e (by
      rw [hdeeds, List.getElem?_append_right (Nat.le_refl _), Nat.sub_self]
      rfl) he
    rw [hdeeds, List.take_left' rfl, putsOf_append_of_ne hbetween, putsOf_concat_delete hkey hd] at htells
    exact ⟨htells.version, (Option.some.inj htells.create).symm⟩
  evaluated now key present := Condition.holds_keyPresent (Store.leads_expire h now).1 key present
  succeeded now key present t a hc ha := by
    rw [succeeded_of_answer_txn ha, hc, Store.satisfies, List.all_cons, List.all_nil, Bool.and_true]
    exact Condition.holds_keyPresent (Store.leads_expire h now).1 key present
  created now span revision a ha := created_of_answer_range h ha

/-- In every run records tell truly of all that was ever done to their keys. -/
theorem metadata_truthful (names : List String) (l : List (Nat × Move)) :
    (Store.ofMembers names).Advances ((ofMembers names).committed l) ((ofMembers names).moves l).store ∧
      Faithful ((ofMembers names).committed l) ((ofMembers names).moves l) := by
  have hs : ((ofMembers names).moves l).store.Sound := (leads_moves l (.ofMembers names)).1
  have ha := advances_moves l (b := ofMembers names) (.ofMembers names)
  have ht := truthful_moves l (b := ofMembers names) (.ofMembers names) .empty
  exact ⟨ha, faithful_of_truthful hs ha (Int.le_refl 1) ht⟩

/-- A key is deleted and put twice again at one revision, and what came before is compacted. -/
example :
    let l : List (Nat × Move) := [(0, .call (.put [1] [10] none)), (0, .call (.txn (.always
      [.put [1] [11] none, .delete ⟨[1], none⟩, .put [1] [12] none, .put [1] [13] none]))), (0, .compact 3)]
    ((ofMembers ["a"]).moves l).store.current [1] = some ⟨[1], [13], 3, 3, 2, 0⟩ ∧
      putsOf [1] (Batch.deeds ((ofMembers ["a"]).committed l)) = [3, 3] := by decide +kernel

end Backend

end Keyspace
