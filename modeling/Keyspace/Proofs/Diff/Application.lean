import Keyspace.Diff
import Keyspace.Proofs.Store.Transaction
import Keyspace.Proofs.Watch.Mirror

/-!
# Diffs applied

A diff between two maps, applied to one of them or to anything that agrees key by key with one or the other, gives
the map that it leads to (`get?_applyTo_between`). Committed under a head it does to the store what it does to the
value map there, at one revision, and nothing elsewhere (`Diff.Applies`).
-/

namespace Keyspace

/-! ## Maps -/

namespace Diff

theorem get?_applyTo (d : Diff) (m : ValueMap) (t : String) : (d.applyTo m).get? t =
    (d.updates.get? t).or ((d.inserts.get? t).or (if t ∈ d.deletions.keys then none else m.get? t)) := by
  have happend : d.applyTo m =
      ((d.deletions.keys.foldl SortedMap.erase m).insertAll d.inserts.entries).insertAll d.updates.entries :=
    List.foldl_append ..
  rw [happend, SortedMap.get?_insertAll_entries, SortedMap.get?_insertAll_entries, SortedMap.get?_foldl_erase]

theorem applyTo_of_isEmpty {d : Diff} (h : d.isEmpty = true) (m : ValueMap) : d.applyTo m = m := by
  simp only [isEmpty, SortedMap.isEmpty, Bool.and_eq_true, List.isEmpty_iff] at h
  simp [applyTo, upserts, SortedMap.keys, h, SortedMap.insertAll]

theorem mem_deletions_between (src dst : ValueMap) (t : String) :
    t ∈ (between src dst).deletions.keys ↔ (dst.get? t).isSome ∧ src.get? t = none := by
  rw [SortedMap.mem_keys_iff]
  show ((dst.filterMap fun k _ => if src.contains k then none else some ()).get? t).isSome ↔ _
  rw [SortedMap.get?_filterMap, SortedMap.contains_eq_isSome]
  cases dst.get? t <;> cases src.get? t <;> simp

/-- Where a map has what either side has, the diff leaves what the source has. -/
theorem get?_applyTo_between {src dst m : ValueMap} {t : String} (h : m.get? t = dst.get? t ∨ m.get? t = src.get? t) :
    ((between src dst).applyTo m).get? t = src.get? t := by
  rw [get?_applyTo]
  simp only [mem_deletions_between]
  simp only [between, SortedMap.get?_filter, SortedMap.contains_eq_isSome]
  cases hs : src.get? t with
  | none => cases hdst : dst.get? t <;> simp_all
  | some v =>
    cases hdst : dst.get? t with
    | none => simp [Option.filter]
    | some w => by_cases hw : w = v <;> simp_all [Option.filter]

theorem applyTo_between (src dst : ValueMap) : (between src dst).applyTo dst = src :=
  SortedMap.ext_get? fun _ => get?_applyTo_between (.inl rfl)

end Diff

/-! ## Drafts -/

namespace Mirrors

variable {head : String} {draft : Draft} {m : ValueMap}

theorem deletes (keys : List String) : ∀ {draft : Draft} {m : ValueMap}, Mirrors head draft.view m →
    Mirrors head (draft.applyAll (keys.map fun k => .delete (.single (Utf8.encode (head ++ k))))).view
      (keys.foldl SortedMap.erase m) := by
  induction keys with
  | nil => exact fun h => h
  | cons k keys ih =>
    intro draft m h
    have hone : (draft.delete (.single (Utf8.encode (head ++ k)))).view =
        draft.view.erase (Utf8.encode (head ++ k)) := by
      simp [Draft.delete, SortedMap.erase, Span.single, Span.contains]
    exact ih (hone ▸ h.erase k)

theorem puts (l : List (String × Bytes)) : ∀ {draft : Draft} {m : ValueMap}, Mirrors head draft.view m →
    Mirrors head (draft.applyAll (l.map fun e => .put (Utf8.encode (head ++ e.1)) e.2 none)).view (m.insertAll l) := by
  induction l with
  | nil => exact fun h => h
  | cons e l ih => exact fun h => ih (h.insert e.1 _)

theorem ops (h : Mirrors head draft.view m) (d : Diff) :
    Mirrors head (draft.applyAll (d.ops head)).view (d.applyTo m) := by
  rw [Diff.ops, Draft.applyAll, List.foldl_append]
  exact (h.deletes d.deletions.keys).puts d.upserts

end Mirrors

/-! ## Keys that no operation writes -/

namespace Edit

theorem get?_histories_removeAll_of_notMem {k : Bytes} (keys : List Bytes) : ∀ {e : Edit}, k ∉ keys →
    (keys.foldl remove e).store.histories.get? k = e.store.histories.get? k := by
  induction keys with
  | nil => exact fun _ => rfl
  | cons key keys ih =>
    intro e hk
    obtain ⟨hne, hk⟩ := not_or.1 (mt List.mem_cons.2 hk)
    rw [List.foldl_cons, ih hk]
    cases hc : e.store.current key with
    | none => rw [remove_of_absent hc]
    | some r => rw [remove_eq_write hc, get?_histories_write, if_neg (Ne.symm hne)]

theorem get?_histories_applyAll {k : Bytes} (ops : List Op) : ∀ {e : Edit}, (∀ op ∈ ops, ¬ op.Writes k) →
    (e.applyAll ops).store.histories.get? k = e.store.histories.get? k := by
  induction ops with
  | nil => exact fun _ => rfl
  | cons op ops ih =>
    intro e h
    have hop := h op List.mem_cons_self
    show ((e.apply op).applyAll ops).store.histories.get? k = _
    rw [ih fun o ho => h o (List.mem_cons_of_mem _ ho)]
    cases op with
    | put key value lease =>
      show (e.put key value lease).store.histories.get? k = _
      have hne : key ≠ k := hop
      rw [put_eq_write, get?_histories_write, if_neg hne]
    | delete span =>
      exact get?_histories_removeAll_of_notMem _ fun hm => hop ((e.store.mem_keysIn span k).1 hm).1

end Edit

/-! ## Commits -/

/-- What is made of a store when the diff is committed under a head. -/
structure Diff.Applies (d : Diff) (head : String) (s t : Store) : Prop where
  values : valuesUnder head t.latest = d.applyTo (valuesUnder head s.latest)
  elsewhere : ∀ k, ¬ Utf8.encode head <+: k → t.histories.get? k = s.histories.get? k
  /-- All changes are of one revision. -/
  commits : s.Commits (d.ops head) t

namespace Diff

variable {d : Diff} {head : String} {op : Op}

theorem mem_ops : op ∈ d.ops head ↔ (∃ k ∈ d.deletions.keys, op = .delete (.single (Utf8.encode (head ++ k)))) ∨
    ∃ e ∈ d.upserts, op = .put (Utf8.encode (head ++ e.1)) e.2 none := by
  simp only [ops, List.mem_append, List.mem_map, eq_comm]

theorem under_of_writes (h : op ∈ d.ops head) {k : Bytes} (hw : op.Writes k) : Utf8.encode head <+: k := by
  have hkey : ∃ t : String, k = Utf8.encode (head ++ t) := by
    rcases mem_ops.1 h with ⟨t, _, rfl⟩ | ⟨e, _, rfl⟩
    · exact ⟨t, of_decide_eq_true hw⟩
    · exact ⟨e.1, Eq.symm hw⟩
  obtain ⟨t, rfl⟩ := hkey
  rw [Utf8.encode_append]
  exact List.prefix_append _ _

theorem isText_of_puts (h : op ∈ d.ops head) {k : Bytes} (hp : op.Puts k) : IsText k := by
  rcases mem_ops.1 h with ⟨t, _, rfl⟩ | ⟨e, _, rfl⟩
  · exact hp.elim
  · exact ⟨_, hp⟩

theorem missingLease?_ops (s : Store) (d : Diff) (head : String) : s.missingLease? (d.ops head) = none := by
  cases hm : s.missingLease? (d.ops head) with
  | none => rfl
  | some l =>
    obtain ⟨op, ho, _, _, key, value, rfl⟩ := Store.missingLease?_eq_some hm
    rcases mem_ops.1 ho with ⟨t, _, h⟩ | ⟨e, _, h⟩ <;> cases h

end Diff

namespace Store

variable {s : Store}

theorem keyed_latest (h : s.Sound) (ht : s.Texts) : Keyed s.latest := by
  intro k r hr
  rw [get?_latest] at hr
  obtain ⟨_, _, hf⟩ := h.dated.current hr
  exact ⟨hf.key, ht k r hr⟩

theorem applies_commit (h : s.Sound) (ht : s.Texts) (d : Diff) (head : String) :
    d.Applies head s (s.commit (d.ops head)) where
  values := by
    have hkeyed : Keyed (s.commit (d.ops head)).latest :=
      keyed_latest (leads_commit h _).1 (logs_commit h ht fun _ ho _ => Diff.isText_of_puts ho).1
    have hm : Mirrors head s.draft.view (valuesUnder head s.latest) := .valuesUnder (keyed_latest h ht)
    have hops := hm.ops d
    rw [← (commits_commit h (d.ops head)).latest] at hops
    exact (hops.eq_valuesUnder hkeyed).symm
  elsewhere k hk := by
    rw [commit, Edit.histories_commit]
    exact Edit.get?_histories_applyAll _ fun op ho hw => hk (Diff.under_of_writes ho hw)
  commits := commits_commit h _

theorem answer_ops (s : Store) (now : Nat) (d : Diff) (head : String) :
    s.answer now (.txn (.always (d.ops head))) =
      (.ok ⟨true, ((s.expire now).commit (d.ops head)).revision⟩, (s.expire now).commit (d.ops head)) := by
  have hmeets : (s.expire now).Meets (.always (d.ops head)) := nofun
  rw [answer_txn, chosen_always, Diff.missingLease?_ops]
  simp [hmeets]

end Store

end Keyspace
