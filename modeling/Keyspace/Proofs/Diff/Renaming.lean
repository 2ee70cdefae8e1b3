import Mathlib.Data.Set.Function
import Keyspace.Proofs.Diff.Minimal

/-!
# Diffs filtered and renamed

A map restricted to some keys, or renamed by a function that is injective on its keys, is told by its lookups
(`SortedMap.eq_rename`). So restricting and renaming may be done before the diff of two maps or after, before a diff
is applied or after. Renaming by a head before the operations are listed also keeps their order.
-/

namespace Keyspace

/-! ## Maps renamed -/

namespace SortedMap

variable {κ ν : Type} [KeyOrder κ]

/-- Of keys that become one, the last in the old order stays. -/
def rename (f : κ → κ) (m : SortedMap κ ν) : SortedMap κ ν := ofList (m.entries.map fun e => (f e.1, e.2))

variable [DecidableEq κ] {f : κ → κ} {m n : SortedMap κ ν} {S : Set κ}

theorem get?_rename_iff (hf : Set.InjOn f S) (hm : ∀ k ∈ m.keys, k ∈ S) (j : κ) (x : ν) :
    (m.rename f).get? j = some x ↔ ∃ k, m.get? k = some x ∧ f k = j := by
  -- Entries that get one key were one entry, so none takes the place of another.
  have hfunctional : ∀ a ∈ m.entries.map (fun e => (f e.1, e.2)), ∀ b ∈ m.entries.map (fun e => (f e.1, e.2)),
      a.1 = b.1 → a.2 = b.2 := by
    intro a ha b hb hab
    obtain ⟨c, hc, rfl⟩ := List.mem_map.1 ha
    obtain ⟨d, hd, rfl⟩ := List.mem_map.1 hb
    have hcd : c.1 = d.1 := hf (hm _ (List.mem_map_of_mem hc)) (hm _ (List.mem_map_of_mem hd)) hab
    have hgc := (get?_eq_some_iff m c.1 c.2).2 hc
    rw [hcd, (get?_eq_some_iff m d.1 d.2).2 hd] at hgc
    exact (Option.some.inj hgc).symm
  rw [rename, get?_ofList_iff hfunctional, List.mem_map]
  constructor
  · rintro ⟨e, he, h⟩
    cases h
    exact ⟨e.1, (get?_eq_some_iff ..).2 he, rfl⟩
  · rintro ⟨k, hk, rfl⟩
    exact ⟨(k, x), (get?_eq_some_iff ..).1 hk, rfl⟩

theorem get?_rename (hf : Set.InjOn f S) (hm : ∀ k ∈ m.keys, k ∈ S) {k : κ} (hk : k ∈ S) :
    (m.rename f).get? (f k) = m.get? k := by
  refine Option.ext fun x => ?_
  rw [get?_rename_iff hf hm]
  constructor
  · rintro ⟨j, hj, hjk⟩
    have hjS : j ∈ S := hm j ((mem_keys_iff m j).2 (hj ▸ rfl))
    rwa [← hf hjS hk hjk]
  · exact fun h => ⟨k, h, rfl⟩

theorem get?_rename_of_notMem (hf : Set.InjOn f S) (hm : ∀ k ∈ m.keys, k ∈ S) {j : κ} (hj : ∀ k ∈ S, f k ≠ j) :
    (m.rename f).get? j = none := by
  refine Option.eq_none_iff_forall_ne_some.2 fun x hx => ?_
  obtain ⟨k, hk, hkj⟩ := (get?_rename_iff hf hm j x).1 hx
  exact hj k (hm k ((mem_keys_iff m k).2 (hk ▸ rfl))) hkj

theorem eq_rename (hf : Set.InjOn f S) (hm : ∀ k ∈ m.keys, k ∈ S) (hin : ∀ k ∈ S, n.get? (f k) = m.get? k)
    (hout : ∀ j, (∀ k ∈ S, f k ≠ j) → n.get? j = none) : n = m.rename f := by
  refine ext_get? fun j => ?_
  by_cases hj : ∃ k ∈ S, f k = j
  · obtain ⟨k, hk, rfl⟩ := hj
    rw [hin k hk, get?_rename hf hm hk]
  · have hne : ∀ k ∈ S, f k ≠ j := fun k hk hkj => hj ⟨k, hk, hkj⟩
    rw [hout j hne, get?_rename_of_notMem hf hm hne]

/-- A function that keeps the order keeps the entries where they are. -/
theorem entries_rename (hf : ∀ a b, KeyOrder.lt a b = true → KeyOrder.lt (f a) (f b) = true) (m : SortedMap κ ν) :
    (m.rename f).entries = m.entries.map fun e => (f e.1, e.2) := by
  have hascending : Ascending (m.entries.map fun e => (f e.1, e.2)) :=
    List.pairwise_map.2 (m.ascending.imp fun h => hf _ _ h)
  exact congrArg entries (ofList_entries ⟨_, hascending⟩)

end SortedMap

namespace Diff

/-- All keys that the diff names. -/
def keys (d : Diff) : List String := d.inserts.keys ++ d.updates.keys ++ d.deletions.keys

variable {src dst m : ValueMap} {d e : Diff} {f : String → String} {S : Set String} {j k : String} {x y : Option Bytes}

theorem mem_keys : k ∈ d.keys ↔ k ∈ d.inserts.keys ∨ k ∈ d.updates.keys ∨ k ∈ d.deletions.keys := by
  simp only [keys, List.mem_append, or_assoc]

theorem Says.congr (h : d.Says k x y) (hi : e.inserts.get? j = d.inserts.get? k)
    (hu : e.updates.get? j = d.updates.get? k) (hd : j ∈ e.deletions.keys ↔ k ∈ d.deletions.keys) :
    e.Says j x y := by
  cases h with
  | insert hi' hu' hd' => exact .insert (hi.trans hi') (hu.trans hu') (mt hd.1 hd')
  | update hi' hu' hd' hne => exact .update (hi.trans hi') (hu.trans hu') (mt hd.1 hd') hne
  | delete hi' hu' hd' => exact .delete (hi.trans hi') (hu.trans hu') (hd.2 hd')
  | keep _ hi' hu' hd' => exact .keep _ (hi.trans hi') (hu.trans hu') (mt hd.1 hd')

theorem Says.ne_of_mem_keys (h : d.Says k x y) (hk : k ∈ d.keys) : x ≠ y := by
  rw [mem_keys, SortedMap.mem_keys_iff, SortedMap.mem_keys_iff] at hk
  cases h with
  | insert | delete => simp
  | update _ _ _ hne => exact fun hxy => hne (Option.some.inj hxy)
  | keep _ hi hu hd => simp [hi, hu, hd] at hk

theorem mem_of_mem_keys_between (h : k ∈ (between src dst).keys) : k ∈ src.keys ∨ k ∈ dst.keys := by
  have hne := (says_between src dst k).ne_of_mem_keys h
  rw [SortedMap.mem_keys_iff, SortedMap.mem_keys_iff]
  cases hs : src.get? k with
  | some v => exact .inl rfl
  | none =>
    cases hd : dst.get? k with
    | some w => exact .inr rfl
    | none => exact absurd (hd.trans hs.symm) hne

/-! ## Diffs filtered -/

theorem filterKeys_between (src dst : ValueMap) (keep : String → Bool) :
    (between src dst).filterKeys keep = between (src.filter fun k _ => keep k) (dst.filter fun k _ => keep k) := by
  refine eq_of_says fun k => ⟨_, _, ?_, says_between ..⟩
  have hget : ∀ {ν : Type} (m : SortedMap String ν), (m.filter fun k _ => keep k).get? k =
      if keep k then m.get? k else none := fun m => by
    rw [SortedMap.get?_filter]
    cases m.get? k <;> simp [Option.filter]
  have hmem : k ∈ ((between src dst).filterKeys keep).deletions.keys ↔
      keep k ∧ k ∈ (between src dst).deletions.keys := by
    show k ∈ (SortedMap.filter (between src dst).deletions fun k _ => keep k).keys ↔ _
    rw [SortedMap.mem_keys_iff, SortedMap.mem_keys_iff, hget]
    cases keep k <;> simp
  rw [hget, hget]
  by_cases hk : keep k
  · rw [if_pos hk, if_pos hk]
    exact (says_between src dst k).congr ((hget _).trans (if_pos hk)) ((hget _).trans (if_pos hk)) (by simp [hmem, hk])
  · rw [if_neg hk, if_neg hk]
    exact .keep _ ((hget _).trans (if_neg hk)) ((hget _).trans (if_neg hk)) (by simp [hmem, hk])

/-! ## Diffs renamed -/

theorem mapKeys_eq (d : Diff) (f : String → String) :
    d.mapKeys f = ⟨d.inserts.rename f, d.updates.rename f, d.deletions.rename f⟩ := by
  simp only [mapKeys, SortedSet.ofList, SortedMap.rename, SortedMap.keys, List.map_map, Function.comp_def]

section
variable (hf : Set.InjOn f S) (hd : ∀ k ∈ d.keys, k ∈ S)
include hf hd

theorem get?_mapKeys (hk : k ∈ S) : (d.mapKeys f).inserts.get? (f k) = d.inserts.get? k ∧
    (d.mapKeys f).updates.get? (f k) = d.updates.get? k ∧
    (f k ∈ (d.mapKeys f).deletions.keys ↔ k ∈ d.deletions.keys) := by
  rw [mapKeys_eq, SortedMap.mem_keys_iff, SortedMap.mem_keys_iff]
  have hdel := SortedMap.get?_rename hf (fun k h => hd k (mem_keys.2 (.inr (.inr h)))) hk
  exact ⟨SortedMap.get?_rename hf (fun k h => hd k (mem_keys.2 (.inl h))) hk,
    SortedMap.get?_rename hf (fun k h => hd k (mem_keys.2 (.inr (.inl h)))) hk, by rw [hdel]⟩

theorem get?_mapKeys_of_notMem (hj : ∀ k ∈ S, f k ≠ j) : (d.mapKeys f).inserts.get? j = none ∧
    (d.mapKeys f).updates.get? j = none ∧ j ∉ (d.mapKeys f).deletions.keys := by
  rw [mapKeys_eq, SortedMap.mem_keys_iff]
  have hdel := SortedMap.get?_rename_of_notMem hf (fun k h => hd k (mem_keys.2 (.inr (.inr h)))) hj
  exact ⟨SortedMap.get?_rename_of_notMem hf (fun k h => hd k (mem_keys.2 (.inl h))) hj,
    SortedMap.get?_rename_of_notMem hf (fun k h => hd k (mem_keys.2 (.inr (.inl h)))) hj, by simp [hdel]⟩

end

theorem mapKeys_between (hf : Set.InjOn f {k | k ∈ src.keys ∨ k ∈ dst.keys}) :
    (between src dst).mapKeys f = between (src.rename f) (dst.rename f) := by
  refine eq_of_says fun j => ⟨_, _, ?_, says_between ..⟩
  have hs : ∀ k ∈ src.keys, k ∈ {k | k ∈ src.keys ∨ k ∈ dst.keys} := fun _ => .inl
  have ht : ∀ k ∈ dst.keys, k ∈ {k | k ∈ src.keys ∨ k ∈ dst.keys} := fun _ => .inr
  by_cases hj : ∃ k ∈ {k | k ∈ src.keys ∨ k ∈ dst.keys}, f k = j
  · obtain ⟨k, hk, rfl⟩ := hj
    obtain ⟨hi, hu, hd⟩ := get?_mapKeys hf (fun _ => mem_of_mem_keys_between) hk
    rw [SortedMap.get?_rename hf hs hk, SortedMap.get?_rename hf ht hk]
    exact (says_between src dst k).congr hi hu hd
  · have hne : ∀ k ∈ {k | k ∈ src.keys ∨ k ∈ dst.keys}, f k ≠ j := fun k hk hkj => hj ⟨k, hk, hkj⟩
    obtain ⟨hi, hu, hd⟩ := get?_mapKeys_of_notMem hf (fun _ => mem_of_mem_keys_between) hne
    rw [SortedMap.get?_rename_of_notMem hf hs hne, SortedMap.get?_rename_of_notMem hf ht hne]
    exact .keep _ hi hu hd

theorem mem_of_mem_keys_applyTo (h : k ∈ (d.applyTo m).keys) : k ∈ m.keys ∨ k ∈ d.keys := by
  simp only [mem_keys, SortedMap.mem_keys_iff, get?_applyTo] at *
  cases hu : d.updates.get? k with
  | some v => exact .inr (.inr (.inl rfl))
  | none =>
    cases hi : d.inserts.get? k with
    | some v => exact .inr (.inl rfl)
    | none =>
      rw [hu, hi, Option.none_or, Option.none_or] at h
      split at h
      · cases h
      · exact .inl h

theorem applyTo_mapKeys (hf : Set.InjOn f {k | k ∈ m.keys ∨ k ∈ d.keys}) :
    (d.mapKeys f).applyTo (m.rename f) = (d.applyTo m).rename f := by
  have hm : ∀ k ∈ m.keys, k ∈ {k | k ∈ m.keys ∨ k ∈ d.keys} := fun _ => .inl
  have hd : ∀ k ∈ d.keys, k ∈ {k | k ∈ m.keys ∨ k ∈ d.keys} := fun _ => .inr
  refine SortedMap.eq_rename hf (fun _ => mem_of_mem_keys_applyTo) (fun k hk => ?_) fun j hj => ?_
  · obtain ⟨hi, hu, hdel⟩ := get?_mapKeys hf hd hk
    rw [get?_applyTo, get?_applyTo, hi, hu, SortedMap.get?_rename hf hm hk]
    simp only [hdel]
  · obtain ⟨hi, hu, hdel⟩ := get?_mapKeys_of_notMem hf hd hj
    rw [get?_applyTo, hi, hu, if_neg hdel, SortedMap.get?_rename_of_notMem hf hm hj]
    rfl

/-! ## Operations under a head -/

theorem lt_append_left {s t : String} (head : String) (h : KeyOrder.lt s t = true) :
    KeyOrder.lt (head ++ s) (head ++ t) = true := by
  have happend : ∀ l : Bytes, Bytes.lt (l ++ Utf8.encode s) (l ++ Utf8.encode t) = true := fun l => by
    induction l with
    | nil => exact h
    | cons b l ih => simp [Bytes.lt, ih]
  show Bytes.lt (Utf8.encode (head ++ s)) (Utf8.encode (head ++ t)) = true
  rw [Utf8.encode_append, Utf8.encode_append, happend]

theorem ops_mapKeys (d : Diff) (p q : String) : (d.mapKeys (q ++ ·)).ops p = d.ops (p ++ q) := by
  have hentries : ∀ {ν : Type} (m : SortedMap String ν), (m.rename (q ++ ·)).entries =
      m.entries.map fun e => (q ++ e.1, e.2) := SortedMap.entries_rename fun _ _ => lt_append_left q
  simp only [mapKeys_eq, ops, upserts, SortedMap.keys, hentries, List.map_append, List.map_map, Function.comp_def,
    String.append_assoc]

/-- Diffing and applying commute with restricting the keys and with renaming them one by one, and to rename by a head
is to list the operations under the longer head. -/
theorem filterKeys_mapKeys_commute (src dst : ValueMap) :
    (∀ keep : String → Bool, (between src dst).filterKeys keep =
      between (src.filter fun k _ => keep k) (dst.filter fun k _ => keep k)) ∧
    (∀ f : String → String, Set.InjOn f {k | k ∈ src.keys ∨ k ∈ dst.keys} →
      (between src dst).mapKeys f = between (src.rename f) (dst.rename f)) ∧
    (∀ (d : Diff) (m : ValueMap) (f : String → String), Set.InjOn f {k | k ∈ m.keys ∨ k ∈ d.keys} →
      (d.mapKeys f).applyTo (m.rename f) = (d.applyTo m).rename f) ∧
    ∀ (d : Diff) (p q : String), (d.mapKeys (q ++ ·)).ops p = d.ops (p ++ q) :=
  ⟨filterKeys_between src dst, fun _ => mapKeys_between, fun _ _ _ => applyTo_mapKeys, ops_mapKeys⟩

theorem filterKeys_mapKeys_commute_swap :
    let src : ValueMap := .ofList [("a", [1]), ("b", [2])]
    let dst : ValueMap := .ofList [("b", [3]), ("c", [4])]
    let f : String → String := Equiv.swap "a" "c"
    ((between src dst).mapKeys f = between (src.rename f) (dst.rename f) ∧
      ((between src dst).mapKeys f).applyTo (dst.rename f) = ((between src dst).applyTo dst).rename f) ∧
    (between src dst).mapKeys f = ⟨.ofList [("c", [1])], .ofList [("b", [2])], .ofList ["a"]⟩ := by
  intro src dst f
  have hf : ∀ S : Set String, Set.InjOn f S := fun _ => (Equiv.swap "a" "c").injective.injOn
  obtain ⟨-, hbetween, happly, -⟩ := filterKeys_mapKeys_commute src dst
  exact ⟨⟨hbetween f (hf _), happly (between src dst) dst f (hf _)⟩, by decide +kernel⟩

end Diff

end Keyspace
