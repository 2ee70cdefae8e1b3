import Keyspace.SortedMap.Lemmas
import Keyspace.Store.Compact
import Keyspace.Store.Write

/-!
# Views of a store

A view is looked up history by history. Reading a span gives the view's records in that span, in
key order (`read_eq`), and compaction changes no view at or above its floor (`asOf_compact`).
-/

namespace Keyspace

/-! ## Histories -/

namespace History

theorem asOf_cons_of_lt {p : Point} {h : History} {r : Int} (hr : r < p.revision) :
    asOf (p :: h) r = asOf h r := by
  have : ¬ p.revision ≤ r := by omega
  simp [asOf, this]

theorem asOf_cons_of_le {p : Point} {h : History} {r : Int} (hr : p.revision ≤ r) :
    asOf (p :: h) r = p.record := by
  simp [asOf, hr]

@[simp] theorem latest_cons (p : Point) (h : History) : latest (p :: h) = p.record := rfl

theorem asOf_eq_latest {h : History} {r : Int} (hr : ∀ p ∈ h, p.revision ≤ r) : h.asOf r = h.latest := by
  cases h with
  | nil => rfl
  | cons p h => rw [asOf_cons_of_le (hr p (by simp)), latest_cons]

theorem asOf_compact (h : History) {floor r : Int} (hr : floor ≤ r) :
    (h.compact floor).asOf r = h.asOf r := by
  induction h with
  | nil => rfl
  | cons p h ih =>
    by_cases hp : floor < p.revision
    · have hc : compact (p :: h) floor = p :: compact h floor := by simp [compact, hp]
      rw [hc]
      by_cases hpr : p.revision ≤ r
      · rw [asOf_cons_of_le hpr, asOf_cons_of_le hpr]
      · rw [asOf_cons_of_lt (by omega), asOf_cons_of_lt (by omega), ih]
    · have hc : compact (p :: h) floor = [p] := by simp [compact, hp]
      rw [hc, asOf_cons_of_le (by omega), asOf_cons_of_le (by omega)]

theorem asOf_of_isGone {h : History} (hg : h.isGone = true) (r : Int) : h.asOf r = none := by
  unfold isGone at hg
  split at hg
  · rename_i p
    simp only [Option.isNone_iff_eq_none] at hg
    by_cases hp : p.revision ≤ r <;> simp [asOf, hp, hg]
  · cases hg

theorem mem_of_mem_compact {h : History} {floor : Int} {p : Point} (hp : p ∈ h.compact floor) : p ∈ h := by
  unfold compact at hp
  rcases List.mem_append.1 hp with hp | hp
  · exact (List.takeWhile_prefix _).subset hp
  · exact (List.dropWhile_suffix _).subset (List.mem_of_mem_take hp)

theorem latest_of_mem {h : History} {record : Record} (hl : h.latest = some record) :
    ∃ p ∈ h, p.record = some record := by
  cases h with
  | nil => cases hl
  | cons p h => exact ⟨p, by simp, hl⟩

theorem asOf_of_mem {h : History} {r : Int} {record : Record} (ha : h.asOf r = some record) :
    ∃ p ∈ h, p.revision ≤ r ∧ p.record = some record := by
  obtain ⟨p, hp, hr⟩ := Option.bind_eq_some_iff.1 ha
  exact ⟨p, List.mem_of_find?_eq_some hp, by simpa using List.find?_some hp, hr⟩

end History

/-! ## Lookups in a view -/

namespace Store

theorem get?_latest (s : Store) (k : Bytes) : s.latest.get? k = s.current k := by
  rw [latest, SortedMap.get?_filterMap]; rfl

theorem get?_asOf (s : Store) (r : Int) (k : Bytes) :
    (s.asOf r).get? k = (s.histories.get? k).bind (·.asOf r) := by
  rw [asOf, SortedMap.get?_filterMap]

theorem asOf_eq_latest {s : Store} {r : Int}
    (h : ∀ k h, s.histories.get? k = some h → ∀ p ∈ h, p.revision ≤ r) : s.asOf r = s.latest := by
  refine SortedMap.ext_get? fun k => ?_
  rw [get?_asOf, get?_latest, current]
  cases hk : s.histories.get? k with
  | none => rfl
  | some l => exact History.asOf_eq_latest (h k l hk)

end Store

/-! ## Compaction -/

namespace Store

theorem get?_compact (s : Store) {revision : Int} (h : s.floor < revision) (k : Bytes) :
    (s.compact revision).histories.get? k =
      (s.histories.get? k).bind fun l =>
        if (l.compact (min revision s.revision)).isGone then none
        else some (l.compact (min revision s.revision)) := by
  have hf : ¬ revision ≤ s.floor := by omega
  rw [compact, if_neg hf, SortedMap.get?_filterMap]

theorem floor_compact (s : Store) {revision : Int} (h : s.floor < revision) :
    (s.compact revision).floor = min revision s.revision := by
  have hf : ¬ revision ≤ s.floor := by omega
  rw [compact, if_neg hf]

theorem compact_of_le {s : Store} {revision : Int} (h : revision ≤ s.floor) : s.compact revision = s := by
  rw [compact, if_pos h]

theorem asOf_compact (s : Store) (revision : Int) {r : Int} (hr : (s.compact revision).floor ≤ r) :
    (s.compact revision).asOf r = s.asOf r := by
  by_cases hf : s.floor < revision
  · rw [floor_compact s hf] at hr
    refine SortedMap.ext_get? fun k => ?_
    rw [get?_asOf, get?_asOf, get?_compact s hf]
    cases s.histories.get? k with
    | none => rfl
    | some l =>
      have hl := History.asOf_compact l hr
      simp only [Option.bind_some]
      split
      · rename_i hg
        rw [← hl, History.asOf_of_isGone hg]
        rfl
      · exact hl
  · rw [compact_of_le (by omega)]

@[simp] theorem latest_compact (s : Store) (revision : Int) : (s.compact revision).latest = s.latest := by
  by_cases hf : s.floor < revision
  · refine SortedMap.ext_get? fun k => ?_
    rw [get?_latest, get?_latest, current, current, get?_compact s hf]
    cases s.histories.get? k with
    | none => rfl
    | some l =>
      have hl : (l.compact (min revision s.revision)).latest = l.latest := by
        cases l with
        | nil => rfl
        | cons p l =>
          generalize min revision s.revision = r
          by_cases hp : r < p.revision <;> simp [History.compact, hp]
      simp only [Option.bind_some]
      split
      · rename_i hg
        rw [← hl]
        unfold History.isGone at hg
        split at hg
        · rename_i p _
          rename_i he
          simp only [Option.isNone_iff_eq_none] at hg
          simp [he, hg]
        · cases hg
      · exact hl
  · rw [compact_of_le (by omega)]

@[simp] theorem current_compact (s : Store) (revision : Int) (k : Bytes) :
    (s.compact revision).current k = s.current k := by
  rw [← get?_latest, latest_compact, get?_latest]

end Store

/-! ## Reading -/

namespace SortedMap

variable {ν μ : Type}

theorem dropBelow_eq_filter (m : SortedMap Bytes ν) (start : Bytes) :
    m.dropBelow start = m.filter fun k _ => !Bytes.lt k start :=
  ext ((m.dropBelow start).ascending.eq_of_mem_iff (SortedMap.ascending _) fun e => by
    rw [mem_dropBelow]
    simp only [filter, List.mem_filter, Bool.not_eq_true']
    rfl)

theorem takeBelow_eq_filter (m : SortedMap Bytes ν) (stop : Bytes) :
    m.takeBelow stop = m.filter fun k _ => Bytes.lt k stop :=
  ext ((m.takeBelow stop).ascending.eq_of_mem_iff (SortedMap.ascending _) fun e => by
    rw [mem_takeBelow]
    simp only [filter, List.mem_filter]
    rfl)

theorem filterMap_keys_filter (m : SortedMap Bytes ν) (keep : Bytes → Bool) (f : ν → Option μ) :
    ((m.filter fun k _ => keep k).keys).filterMap (fun k => (m.get? k).bind f) =
      ((m.filterMap fun _ v => f v).filter fun k _ => keep k).values := by
  have hget : ∀ e ∈ m.entries, m.get? e.1 = some e.2 := fun e he => (get?_eq_some_iff m e.1 e.2).2 he
  simp only [keys, values, filter, filterMap, List.filterMap_map, Function.comp_def]
  generalize m.entries = l at hget
  generalize m.get? = g at hget
  induction l with
  | nil => rfl
  | cons e l ih =>
    have he := hget e (by simp)
    have ih := ih fun d hd => hget d (List.mem_cons_of_mem _ hd)
    by_cases hk : keep e.1 = true
    · cases hf : f e.2 <;> simp [hk, hf, he, ih]
    · cases hf : f e.2 <;> simp [hk, hf, ih]

end SortedMap

theorem Span.contains_interval {first stop : Bytes} (h : stop ≠ [0]) (k : Bytes) :
    (Span.interval first stop).contains k = (!Bytes.lt k first && Bytes.lt k stop) := by
  unfold Span.contains Span.interval
  split
  · rename_i h'; cases h'
  · rename_i h'; exact absurd (Option.some.inj h') h
  · rename_i h'; rw [Option.some.inj h']

namespace Store

theorem keysIn_interval (s : Store) {first stop : Bytes} (h : stop ≠ [0]) :
    s.keysIn (Span.interval first stop) =
      if Bytes.lt first stop then ((s.histories.dropBelow first).takeBelow stop).keys else [] := by
  refine Option.some.inj ((s.keysIn?_eq_some _).symm.trans ?_)
  unfold keysIn? Span.interval
  split
  · rename_i h'; cases h'
  · rename_i h'; exact absurd (Option.some.inj h') h
  · rename_i h'
    cases h'
    split
    · rename_i hlt; rw [SortedMap.slice?_of_lt _ hlt]; rfl
    · rfl

theorem mem_keysIn_interval (s : Store) {first stop : Bytes} (h : stop ≠ [0]) (k : Bytes) :
    k ∈ s.keysIn (Span.interval first stop) ↔
      (Span.interval first stop).contains k = true ∧ (s.histories.get? k).isSome := by
  rw [keysIn_interval s h, Span.contains_interval h]
  simp only [Bool.and_eq_true, Bool.not_eq_true']
  by_cases hfs : Bytes.lt first stop = true
  · rw [if_pos hfs, SortedMap.mem_keys_iff, SortedMap.takeBelow_eq_filter,
      SortedMap.dropBelow_eq_filter, SortedMap.get?_filter, SortedMap.get?_filter]
    cases s.histories.get? k with
    | none => simp
    | some l => cases Bytes.lt k first <;> cases Bytes.lt k stop <;> simp
  · rw [if_neg hfs]
    refine ⟨fun hk => (List.not_mem_nil hk).elim, fun hk => absurd ?_ hfs⟩
    obtain ⟨⟨h₁, h₂⟩, _⟩ := hk
    cases h₃ : Bytes.lt first k with
    | true => exact Bytes.lt_trans h₃ h₂
    | false => exact Bytes.lt_connected h₃ h₁ ▸ h₂

theorem mem_keysIn (s : Store) (span : Span) (k : Bytes) :
    k ∈ s.keysIn span ↔ span.contains k = true ∧ (s.histories.get? k).isSome := by
  obtain ⟨first, stop⟩ := span
  cases stop with
  | none =>
    rw [← SortedMap.mem_keys_iff]
    show k ∈ (if s.histories.contains first then [first] else []) ↔ decide (k = first) = true ∧ _
    rw [decide_eq_true_eq]
    by_cases h : s.histories.contains first = true
    · rw [if_pos h, List.mem_singleton]
      exact ⟨fun hk => ⟨hk, hk ▸ (SortedMap.contains_iff _ _).1 h⟩, And.left⟩
    · rw [if_neg h]
      exact ⟨fun hk => (List.not_mem_nil hk).elim,
        fun ⟨hk, hm⟩ => absurd ((SortedMap.contains_iff _ _).2 (hk ▸ hm)) h⟩
  | some stop =>
    by_cases h : stop = [0]
    · subst h
      show k ∈ (s.histories.dropBelow first).keys ↔ (!Bytes.lt k first) = true ∧ _
      rw [SortedMap.mem_keys_iff, SortedMap.dropBelow_eq_filter, SortedMap.get?_filter]
      cases s.histories.get? k with
      | none => simp
      | some l => cases Bytes.lt k first <;> simp
    · exact mem_keysIn_interval s h k

theorem keysIn_pairwise (s : Store) (span : Span) :
    (s.keysIn span).Pairwise fun a b => Bytes.lt a b = true := by
  obtain ⟨first, stop⟩ := span
  cases stop with
  | none =>
    show (if s.histories.contains first then [first] else []).Pairwise _
    split <;> simp
  | some stop =>
    by_cases h : stop = [0]
    · subst h
      exact (s.histories.dropBelow first).keys_pairwise
    · show (s.keysIn (Span.interval first stop)).Pairwise _
      rw [keysIn_interval s h]
      split
      · exact SortedMap.keys_pairwise _
      · exact List.Pairwise.nil

theorem keysIn_eq (s : Store) (span : Span) :
    s.keysIn span = (s.histories.filter fun k _ => span.contains k).keys := by
  apply SortedMap.keys_eq_of_mem_iff (s.keysIn_pairwise span) (SortedMap.keys_pairwise _)
  intro k
  rw [mem_keysIn, SortedMap.mem_keys_iff, SortedMap.get?_filter]
  cases s.histories.get? k with
  | none => simp
  | some l => cases span.contains k <;> simp

/-- The records read at a revision are those of the view at that revision. -/
theorem read_eq (s : Store) (span : Span) (revision : Option Int) :
    s.read span revision = (s.readRevision revision).map fun r =>
      ((s.asOf r).filter fun k _ => span.contains k).values := by
  unfold read
  congr 1
  funext r
  rw [keysIn_eq, SortedMap.filterMap_keys_filter]
  rfl

end Store

end Keyspace
