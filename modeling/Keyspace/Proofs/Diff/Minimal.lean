import Keyspace.Proofs.Diff.Application

/-!
# The minimal diff

A diff is minimal if it turns the destination into the source with one change at most for a key, and each change is of
the kind that its key calls for. Key by key that leaves no choice (`minimal_iff`, `Says.agree`), so there is one such
diff for two maps, and `between` is the one (`minimal_diff`).
-/

namespace Keyspace.Diff

structure Minimal (src dst : ValueMap) (d : Diff) : Prop where
  applied : d.applyTo dst = src
  insertsUpdates : ∀ k ∈ d.inserts.keys, k ∉ d.updates.keys
  insertsDeletions : ∀ k ∈ d.inserts.keys, k ∉ d.deletions.keys
  updatesDeletions : ∀ k ∈ d.updates.keys, k ∉ d.deletions.keys
  inserts : ∀ k ∈ d.inserts.keys, k ∉ dst.keys
  updates : ∀ k v, d.updates.get? k = some v → ∃ w, dst.get? k = some w ∧ w ≠ v
  deletions : ∀ k ∈ d.deletions.keys, k ∈ dst.keys

/-- What a diff says of one key, with the value before and the value after. -/
inductive Says (d : Diff) (k : String) : Option Bytes → Option Bytes → Prop
  | insert {v : Bytes} (hi : d.inserts.get? k = some v) (hu : d.updates.get? k = none) (hd : k ∉ d.deletions.keys) :
    Says d k none (some v)
  | update {v w : Bytes} (hi : d.inserts.get? k = none) (hu : d.updates.get? k = some v) (hd : k ∉ d.deletions.keys)
    (hne : w ≠ v) : Says d k (some w) (some v)
  | delete {w : Bytes} (hi : d.inserts.get? k = none) (hu : d.updates.get? k = none) (hd : k ∈ d.deletions.keys) :
    Says d k (some w) none
  | keep (o : Option Bytes) (hi : d.inserts.get? k = none) (hu : d.updates.get? k = none) (hd : k ∉ d.deletions.keys) :
    Says d k o o

variable {src dst : ValueMap} {d e : Diff} {k : String} {x y : Option Bytes}

/-! ## One key -/

/-- The values before and after decide what is said. -/
theorem Says.agree (hd : d.Says k x y) (he : e.Says k x y) : d.inserts.get? k = e.inserts.get? k ∧
    d.updates.get? k = e.updates.get? k ∧ (k ∈ d.deletions.keys ↔ k ∈ e.deletions.keys) := by
  cases hd with
  | insert hi hu hd =>
    cases he with
    | insert hi' hu' hd' => exact ⟨hi.trans hi'.symm, hu.trans hu'.symm, iff_of_false hd hd'⟩
  | update hi hu hd hne =>
    cases he with
    | update hi' hu' hd' => exact ⟨hi.trans hi'.symm, hu.trans hu'.symm, iff_of_false hd hd'⟩
    | keep => exact absurd rfl hne
  | delete hi hu hd =>
    cases he with
    | delete hi' hu' hd' => exact ⟨hi.trans hi'.symm, hu.trans hu'.symm, iff_of_true hd hd'⟩
  | keep o hi hu hd =>
    cases he with
    | update hi' hu' hd' hne => exact absurd rfl hne
    | keep _ hi' hu' hd' => exact ⟨hi.trans hi'.symm, hu.trans hu'.symm, iff_of_false hd hd'⟩

theorem Says.after (h : d.Says k x y) :
    (d.updates.get? k).or ((d.inserts.get? k).or (if k ∈ d.deletions.keys then none else x)) = y := by
  cases h with
  | insert hi hu hd => simp [hi, hu]
  | update hi hu hd hne => simp [hu]
  | delete hi hu hd => simp [hi, hu, hd]
  | keep o hi hu hd => simp [hi, hu, hd]

theorem Says.of_insert (h : d.Says k x y) {v : Bytes} (hv : d.inserts.get? k = some v) :
    x = none ∧ d.updates.get? k = none ∧ k ∉ d.deletions.keys := by
  cases h with
  | insert hi hu hd => exact ⟨rfl, hu, hd⟩
  | update hi | delete hi | keep _ hi => cases hi.symm.trans hv

theorem Says.of_update (h : d.Says k x y) {v : Bytes} (hv : d.updates.get? k = some v) :
    (∃ w, x = some w ∧ w ≠ v) ∧ k ∉ d.deletions.keys := by
  cases h with
  | update hi hu hd hne =>
    cases hu.symm.trans hv
    exact ⟨⟨_, rfl, hne⟩, hd⟩
  | insert _ hu | delete _ hu | keep _ _ hu => cases hu.symm.trans hv

theorem Says.of_delete (h : d.Says k x y) (hk : k ∈ d.deletions.keys) : x.isSome := by
  cases h with
  | delete => rfl
  | insert _ _ hd | update _ _ hd | keep _ _ _ hd => exact absurd hk hd

theorem get?_inserts_between (src dst : ValueMap) (k : String) :
    (between src dst).inserts.get? k = if (dst.get? k).isSome then none else src.get? k := by
  show (src.filter fun k _ => !dst.contains k).get? k = _
  rw [SortedMap.get?_filter, SortedMap.contains_eq_isSome]
  cases dst.get? k <;> cases src.get? k <;> rfl

theorem get?_updates_between (src dst : ValueMap) (k : String) :
    (between src dst).updates.get? k = (src.get? k).filter fun v => (dst.get? k).any (· ≠ v) :=
  SortedMap.get?_filter ..

theorem says_between (src dst : ValueMap) (k : String) : (between src dst).Says k (dst.get? k) (src.get? k) := by
  have hi := get?_inserts_between src dst k
  have hu := get?_updates_between src dst k
  have hd := mem_deletions_between src dst k
  cases hs : src.get? k with
  | none =>
    cases ht : dst.get? k with
    | none => exact .keep _ (by simp [hi, hs]) (by simp [hu, hs]) (by simp [hd, ht])
    | some w => exact .delete (by simp [hi, hs]) (by simp [hu, hs]) (by simp [hd, hs, ht])
  | some v =>
    cases ht : dst.get? k with
    | none => exact .insert (by simp [hi, hs, ht]) (by simp [hu, hs, ht, Option.filter]) (by simp [hd, ht])
    | some w =>
      by_cases hw : w = v
      · subst hw
        exact .keep _ (by simp [hi, ht]) (by simp [hu, hs, ht, Option.filter]) (by simp [hd, hs])
      · exact .update (by simp [hi, ht]) (by simp [hu, hs, ht, hw, Option.filter]) (by simp [hd, hs]) hw

/-! ## All keys -/

theorem minimal_iff : Minimal src dst d ↔ ∀ k, d.Says k (dst.get? k) (src.get? k) := by
  have hmem : ∀ {m : ValueMap} {k}, k ∈ m.keys ↔ ∃ v, m.get? k = some v := fun {m k} => by
    rw [SortedMap.mem_keys_iff, Option.isSome_iff_exists]
  have hnot : ∀ {m : ValueMap} {k}, k ∉ m.keys ↔ m.get? k = none := fun {m k} => by
    rw [SortedMap.mem_keys_iff, Option.not_isSome_iff_eq_none]
  constructor
  · intro h k
    -- The value after is what the diff makes of the value before, so the part with the key decides the case.
    rw [← h.applied, get?_applyTo]
    cases hu : d.updates.get? k with
    | some v =>
      obtain ⟨w, hw, hne⟩ := h.updates k v hu
      have hi : d.inserts.get? k = none := hnot.1 fun hi => h.insertsUpdates k hi (hmem.2 ⟨v, hu⟩)
      rw [hw]
      exact .update hi hu (h.updatesDeletions k (hmem.2 ⟨v, hu⟩)) hne
    | none =>
      cases hi : d.inserts.get? k with
      | some v =>
        rw [hnot.1 (h.inserts k (hmem.2 ⟨v, hi⟩))]
        exact .insert hi hu (h.insertsDeletions k (hmem.2 ⟨v, hi⟩))
      | none =>
        by_cases hd : k ∈ d.deletions.keys
        · obtain ⟨w, hw⟩ := hmem.1 (h.deletions k hd)
          rw [hw, if_pos hd]
          exact .delete hi hu hd
        · rw [if_neg hd]
          exact .keep _ hi hu hd
  · intro h
    refine ⟨SortedMap.ext_get? fun k => (get?_applyTo d dst k).trans (h k).after, fun k hk => ?_, fun k hk => ?_,
      fun k hk => ?_, fun k hk => ?_, fun k v hv => ((h k).of_update hv).1, fun k hk => ?_⟩
    · obtain ⟨v, hv⟩ := hmem.1 hk
      exact hnot.2 ((h k).of_insert hv).2.1
    · obtain ⟨v, hv⟩ := hmem.1 hk
      exact ((h k).of_insert hv).2.2
    · obtain ⟨v, hv⟩ := hmem.1 hk
      exact ((h k).of_update hv).2
    · obtain ⟨v, hv⟩ := hmem.1 hk
      exact hnot.2 ((h k).of_insert hv).1
    · exact (dst.mem_keys_iff k).2 ((h k).of_delete hk)

theorem eq_of_says (h : ∀ k, ∃ x y, d.Says k x y ∧ e.Says k x y) : d = e := by
  have hagree : ∀ k, d.inserts.get? k = e.inserts.get? k ∧ d.updates.get? k = e.updates.get? k ∧
      (k ∈ d.deletions.keys ↔ k ∈ e.deletions.keys) := fun k => by
    obtain ⟨x, y, hd, he⟩ := h k
    exact hd.agree he
  obtain ⟨dins, dupd, ddel⟩ := d
  obtain ⟨eins, eupd, edel⟩ := e
  have hins : dins = eins := SortedMap.ext_get? fun k => (hagree k).1
  have hupd : dupd = eupd := SortedMap.ext_get? fun k => (hagree k).2.1
  have hdel : ddel = edel := SortedMap.ext_keys fun k => (hagree k).2.2
  rw [hins, hupd, hdel]

theorem isEmpty_between_iff (src dst : ValueMap) : (between src dst).isEmpty = true ↔ src = dst := by
  constructor
  · intro h
    rw [← applyTo_between src dst, applyTo_of_isEmpty h]
  · rintro rfl
    have hempty : between src src = empty := eq_of_says fun k =>
      ⟨_, _, says_between src src k, .keep _ rfl rfl (List.not_mem_nil)⟩
    rw [hempty]
    rfl

/-! ## The other way -/

theorem keys_inserts_between (src dst : ValueMap) :
    (between src dst).inserts.keys = (between dst src).deletions.keys := by
  refine SortedMap.keys_eq_of_mem_iff (SortedMap.keys_pairwise _) (SortedMap.keys_pairwise _) fun k => ?_
  rw [mem_deletions_between, SortedMap.mem_keys_iff, get?_inserts_between]
  cases dst.get? k <;> cases src.get? k <;> simp

theorem keys_updates_between (src dst : ValueMap) :
    (between src dst).updates.keys = (between dst src).updates.keys := by
  refine SortedMap.keys_eq_of_mem_iff (SortedMap.keys_pairwise _) (SortedMap.keys_pairwise _) fun k => ?_
  rw [SortedMap.mem_keys_iff, SortedMap.mem_keys_iff, get?_updates_between, get?_updates_between]
  cases dst.get? k with
  | none => cases src.get? k <;> simp [Option.filter]
  | some w =>
    cases src.get? k with
    | none => simp [Option.filter]
    | some v =>
      by_cases hw : w = v
      · subst hw
        rfl
      · simp [Option.filter, hw, Ne.symm hw]

theorem applyTo_applyTo (d : Diff) (m : ValueMap) : d.applyTo (d.applyTo m) = d.applyTo m := by
  refine SortedMap.ext_get? fun k => ?_
  simp only [get?_applyTo]
  cases d.updates.get? k with
  | some v => rfl
  | none =>
    cases d.inserts.get? k with
    | some v => rfl
    | none => by_cases hd : k ∈ d.deletions.keys <;> simp [hd]

/-- One diff of two maps is minimal. It is empty between equal maps, and the one in the other direction has inserts and
deletions exchanged; any diff can be applied twice. -/
theorem minimal_diff (src dst : ValueMap) :
    (∀ d, Minimal src dst d ↔ d = between src dst) ∧
      ((between src dst).isEmpty = true ↔ src = dst) ∧
      ((between dst src).inserts.keys = (between src dst).deletions.keys ∧
        (between dst src).deletions.keys = (between src dst).inserts.keys ∧
        (between dst src).updates.keys = (between src dst).updates.keys) ∧
      ∀ (d : Diff) (m : ValueMap), d.applyTo (d.applyTo m) = d.applyTo m := by
  have hminimal : ∀ d, Minimal src dst d ↔ d = between src dst := fun d => by
    constructor
    · exact fun h => eq_of_says fun k => ⟨_, _, minimal_iff.1 h k, says_between src dst k⟩
    · rintro rfl
      exact minimal_iff.2 (says_between src dst)
  exact ⟨hminimal, isEmpty_between_iff src dst, ⟨keys_inserts_between dst src, (keys_inserts_between src dst).symm,
    keys_updates_between dst src⟩, applyTo_applyTo⟩

end Keyspace.Diff
