import Keyspace.SortedMap

/-!
# Sorted maps: entries and lookups

A lookup finds exactly the entries (`get?_eq_some_iff`), so maps with the same lookups are equal
(`ext_get?`), and the operations are described by what they do to lookups.
-/

namespace Keyspace

variable {κ ν μ : Type} [KeyOrder κ]

/-! ## Ascending lists -/

theorem Ascending.eq_of_mem_iff {l m : List (κ × ν)} (hl : Ascending l) (hm : Ascending m)
    (h : ∀ e, e ∈ l ↔ e ∈ m) : l = m := by
  induction l generalizing m with
  | nil =>
    cases m with
    | nil => rfl
    | cons e m => exact absurd ((h e).2 (by simp)) (by simp)
  | cons d l ih =>
    cases m with
    | nil => exact absurd ((h d).1 (by simp)) (by simp)
    | cons e m =>
      obtain ⟨hd, hl'⟩ := List.pairwise_cons.1 hl
      obtain ⟨he, hm'⟩ := List.pairwise_cons.1 hm
      have hde : d = e := by
        rcases List.mem_cons.1 ((h d).1 (by simp)) with hde | hde
        · exact hde
        · rcases List.mem_cons.1 ((h e).2 (by simp)) with hed | hed
          · exact hed.symm
          · exact absurd (he d hde) (by simp [KeyOrder.asymm (hd e hed)])
      subst hde
      refine congrArg (d :: ·) (ih hl' hm' fun e => ⟨fun hel => ?_, fun hem => ?_⟩)
      · rcases List.mem_cons.1 ((h e).1 (List.mem_cons_of_mem _ hel)) with rfl | h'
        · exact absurd (hd e hel) (by simp [KeyOrder.irrefl])
        · exact h'
      · rcases List.mem_cons.1 ((h e).2 (List.mem_cons_of_mem _ hem)) with rfl | h'
        · exact absurd (he e hem) (by simp [KeyOrder.irrefl])
        · exact h'

theorem Ascending.find?_eq_some [DecidableEq κ] {l : List (κ × ν)} (hl : Ascending l) {e : κ × ν}
    (h : e ∈ l) : (l.find? fun d => d.1 = e.1) = some e := by
  induction l with
  | nil => cases h
  | cons d l ih =>
    obtain ⟨hd, hl⟩ := List.pairwise_cons.1 hl
    rcases List.mem_cons.1 h with rfl | h
    · simp
    · have : ¬ d.1 = e.1 := KeyOrder.ne_of_lt (hd e h)
      simp [this, ih hl h]

namespace SortedMap

/-! ## Intervals -/

theorem mem_dropBelow (m : SortedMap κ ν) (start : κ) (e : κ × ν) :
    e ∈ (m.dropBelow start).entries ↔ e ∈ m.entries ∧ KeyOrder.lt e.1 start = false := by
  obtain ⟨l, hl⟩ := m
  simp only [dropBelow]
  induction l with
  | nil => simp
  | cons d l ih =>
    obtain ⟨hd, hl⟩ := List.pairwise_cons.1 hl
    rw [List.dropWhile_cons]
    split
    · rename_i h
      rw [ih hl]
      constructor
      · exact And.imp_left (List.mem_cons_of_mem _)
      · rintro ⟨hm, he⟩
        rcases List.mem_cons.1 hm with rfl | hm
        · simp [h] at he
        · exact ⟨hm, he⟩
    · rename_i h
      refine ⟨fun hm => ⟨hm, ?_⟩, And.left⟩
      rcases List.mem_cons.1 hm with rfl | hm
      · simpa using h
      · cases he : KeyOrder.lt e.1 start with
        | false => rfl
        | true => exact absurd (KeyOrder.trans (hd e hm) he) (by simpa using h)

theorem mem_takeBelow (m : SortedMap κ ν) (stop : κ) (e : κ × ν) :
    e ∈ (m.takeBelow stop).entries ↔ e ∈ m.entries ∧ KeyOrder.lt e.1 stop = true := by
  obtain ⟨l, hl⟩ := m
  simp only [takeBelow]
  induction l with
  | nil => simp
  | cons d l ih =>
    obtain ⟨hd, hl⟩ := List.pairwise_cons.1 hl
    rw [List.takeWhile_cons]
    split
    · rename_i h
      rw [List.mem_cons, List.mem_cons, ih hl]
      constructor
      · rintro (rfl | ⟨hm, he⟩)
        · exact ⟨.inl rfl, h⟩
        · exact ⟨.inr hm, he⟩
      · rintro ⟨rfl | hm, he⟩
        · exact .inl rfl
        · exact .inr ⟨hm, he⟩
    · rename_i h
      refine ⟨fun hm => absurd hm (by simp), ?_⟩
      rintro ⟨hm, he⟩
      rcases List.mem_cons.1 hm with rfl | hm
      · exact absurd he h
      · exact absurd (KeyOrder.trans (hd e hm) he) h

/-! ## Entries and keys -/

theorem entries_nodup (m : SortedMap κ ν) : m.entries.Nodup :=
  List.Pairwise.imp (fun h he => KeyOrder.ne_of_lt h (congrArg Prod.fst he)) m.ascending

theorem keys_nodup (m : SortedMap κ ν) : m.keys.Nodup :=
  List.pairwise_map.2 (List.Pairwise.imp (fun h => KeyOrder.ne_of_lt h) m.ascending)

theorem length_keys (m : SortedMap κ ν) : m.keys.length = m.size := List.length_map _

theorem keys_pairwise (m : SortedMap κ ν) : m.keys.Pairwise fun a b => KeyOrder.lt a b = true :=
  List.pairwise_map.2 m.ascending

theorem keys_eq_of_mem_iff {l l' : List κ} (hl : l.Pairwise fun a b => KeyOrder.lt a b = true)
    (hl' : l'.Pairwise fun a b => KeyOrder.lt a b = true) (h : ∀ k, k ∈ l ↔ k ∈ l') : l = l' := by
  have ha : ∀ {l : List κ}, (l.Pairwise fun a b => KeyOrder.lt a b = true) →
      Ascending (l.map (·, ())) := fun hl => List.pairwise_map.2 hl
  have hm := (ha hl).eq_of_mem_iff (ha hl') fun e => by simp [h]
  simpa [Function.comp_def] using congrArg (List.map Prod.fst) hm

variable [DecidableEq κ]

/-! ## Lookups -/

theorem get?_eq_some_iff (m : SortedMap κ ν) (k : κ) (v : ν) :
    m.get? k = some v ↔ (k, v) ∈ m.entries := by
  simp only [get?, Option.map_eq_some_iff]
  constructor
  · rintro ⟨e, he, rfl⟩
    have hk : e.1 = k := by simpa using List.find?_some he
    exact hk ▸ List.mem_of_find?_eq_some he
  · intro h
    exact ⟨(k, v), m.ascending.find?_eq_some h, rfl⟩

theorem ext_get? {m n : SortedMap κ ν} (h : ∀ k, m.get? k = n.get? k) : m = n :=
  ext (m.ascending.eq_of_mem_iff n.ascending fun e => by
    rw [← get?_eq_some_iff, ← get?_eq_some_iff, h])

theorem mem_keys_iff (m : SortedMap κ ν) (k : κ) : k ∈ m.keys ↔ (m.get? k).isSome := by
  simp only [keys, List.mem_map, Option.isSome_iff_exists, get?_eq_some_iff]
  constructor
  · rintro ⟨e, he, rfl⟩
    exact ⟨e.2, he⟩
  · rintro ⟨v, h⟩
    exact ⟨(k, v), h, rfl⟩

/-- A set is told by its members. -/
theorem ext_keys {s t : SortedSet κ} (h : ∀ k, k ∈ SortedMap.keys s ↔ k ∈ SortedMap.keys t) : s = t := by
  refine ext_get? fun k => Option.ext fun u => ?_
  have hk := h k
  rw [mem_keys_iff, mem_keys_iff, Option.isSome_iff_exists, Option.isSome_iff_exists] at hk
  exact ⟨fun hu => (hk.1 ⟨u, hu⟩).elim fun _ h => h, fun hu => (hk.2 ⟨u, hu⟩).elim fun _ h => h⟩

theorem contains_iff (m : SortedMap κ ν) (k : κ) : m.contains k = true ↔ k ∈ m.keys := by
  rw [mem_keys_iff, contains_eq_isSome]

/-! ## Operations -/

theorem get?_filter (m : SortedMap κ ν) (p : κ → ν → Bool) (k : κ) :
    (m.filter p).get? k = (m.get? k).filter (p k) := by
  refine Option.ext fun v => ?_
  rw [get?_eq_some_iff, Option.filter_eq_some_iff, get?_eq_some_iff]
  simp [filter]

theorem get?_filterMap (m : SortedMap κ ν) (f : κ → ν → Option μ) (k : κ) :
    (m.filterMap f).get? k = (m.get? k).bind (f k) := by
  refine Option.ext fun w => ?_
  rw [get?_eq_some_iff, Option.bind_eq_some_iff]
  simp only [filterMap, List.mem_filterMap, Option.map_eq_some_iff, get?_eq_some_iff]
  constructor
  · rintro ⟨e, he, v, hv, h⟩
    cases h
    exact ⟨e.2, he, hv⟩
  · rintro ⟨v, hv, hw⟩
    exact ⟨(k, v), hv, w, hw, rfl⟩

/-- The last of the entries inserted for a key decides. -/
theorem get?_insertAll (m : SortedMap κ ν) (l : List (κ × ν)) (k : κ) :
    (m.insertAll l).get? k = ((l.reverse.find? fun e => e.1 = k).map (·.2)).or (m.get? k) := by
  induction l generalizing m with
  | nil => simp [insertAll]
  | cons e l ih =>
    have : m.insertAll (e :: l) = (m.insert e.1 e.2).insertAll l := rfl
    rw [this, ih, get?_insert]
    simp only [List.reverse_cons, List.find?_append]
    cases l.reverse.find? fun e => decide (e.1 = k) with
    | some d => simp
    | none => by_cases h : e.1 = k <;> simp [h]

theorem get?_ofList (l : List (κ × ν)) (k : κ) :
    (ofList l : SortedMap κ ν).get? k = (l.reverse.find? fun e => e.1 = k).map (·.2) := by
  simp [ofList, get?_insertAll]

/-- Entries with one key are one entry, so all of them are found. -/
theorem get?_ofList_iff {l : List (κ × ν)} (h : ∀ a ∈ l, ∀ b ∈ l, a.1 = b.1 → a.2 = b.2) (k : κ) (x : ν) :
    (ofList l).get? k = some x ↔ (k, x) ∈ l := by
  rw [get?_ofList, Option.map_eq_some_iff]
  constructor
  · rintro ⟨e, he, rfl⟩
    have hk : e.1 = k := by simpa using List.find?_some he
    have hm := List.mem_reverse.1 (List.mem_of_find?_eq_some he)
    rwa [← hk]
  · intro hm
    cases hf : l.reverse.find? (fun e => e.1 = k) with
    | none =>
      have := List.find?_eq_none.1 hf (k, x) (List.mem_reverse.2 hm)
      simp at this
    | some e =>
      have hk : e.1 = k := by simpa using List.find?_some hf
      have he := List.mem_reverse.1 (List.mem_of_find?_eq_some hf)
      exact ⟨e, rfl, h e he (k, x) hm hk⟩

/-- Removing keys one after the other removes them all. -/
theorem get?_foldl_erase (m : SortedMap κ ν) (l : List κ) (k : κ) :
    (l.foldl erase m).get? k = if k ∈ l then none else m.get? k := by
  induction l generalizing m with
  | nil => simp
  | cons j l ih =>
    rw [List.foldl_cons, ih, get?_erase]
    by_cases hl : k ∈ l
    · simp [hl]
    · by_cases hj : j = k
      · simp [hj]
      · simp [hl, hj, Ne.symm hj]

/-- Of the entries of a map those with one key are one. -/
theorem get?_ofList_of_subset {m : SortedMap κ ν} {l : List (κ × ν)} (h : l ⊆ m.entries) (k : κ) (x : ν) :
    (ofList l).get? k = some x ↔ (k, x) ∈ l := by
  refine get?_ofList_iff (fun a ha b hb hk => ?_) k x
  have hga := (get?_eq_some_iff m a.1 a.2).2 (h ha)
  rw [hk, (get?_eq_some_iff m b.1 b.2).2 (h hb)] at hga
  exact (Option.some.inj hga).symm

theorem ofList_eq {m : SortedMap κ ν} {l : List (κ × ν)} (h : ∀ e, e ∈ l ↔ e ∈ m.entries) : ofList l = m := by
  refine ext_get? fun k => Option.ext fun v => ?_
  rw [get?_ofList_of_subset (fun e he => (h e).1 he), h, get?_eq_some_iff]

theorem ofList_entries (m : SortedMap κ ν) : ofList m.entries = m := ofList_eq fun _ => Iff.rfl

theorem get?_insertAll_entries (m n : SortedMap κ ν) (k : κ) :
    (m.insertAll n.entries).get? k = (n.get? k).or (m.get? k) := by
  rw [get?_insertAll, ← get?_ofList, ofList_entries]

end SortedMap

end Keyspace
