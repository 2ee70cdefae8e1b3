import Keyspace.Changes
import Keyspace.Proofs.Store.Chronicle
import Keyspace.Proofs.Store.Prefix

/-!
# Mirrors

A mirror is a map from keys without their head to values. That the changes of a batch take the value map
of one view to that of the next is shown key by key: both sides are what the last event of a key says
(`Mirrors.batch`).
-/

namespace Keyspace

variable {v : SortedMap Bytes Record} {m : ValueMap} {head : String}

/-! ## Value maps -/

/-- The keys under a head, without it, and their values. -/
def valuesUnder (head : String) (v : SortedMap Bytes Record) : ValueMap :=
  (Listing.ofRecords (v.filter fun k _ => (Span.under (Utf8.encode head)).contains k).values).valueMap head

theorem SortedMap.mem_values_filter {ν : Type} (v : SortedMap Bytes ν) (keep : Bytes → Bool) (r : ν) :
    r ∈ (v.filter fun k _ => keep k).values ↔ ∃ k, v.get? k = some r ∧ keep k = true := by
  simp only [values, filter, List.mem_map, List.mem_filter]
  constructor
  · rintro ⟨e, ⟨he, hk⟩, rfl⟩
    exact ⟨e.1, (get?_eq_some_iff v e.1 e.2).2 he, hk⟩
  · rintro ⟨k, hr, hk⟩
    exact ⟨(k, r), ⟨(get?_eq_some_iff v k r).1 hr, hk⟩, rfl⟩

theorem get?_listing (hv : Keyed v) (s : String) (e : Entry) :
    (Listing.ofRecords (v.filter fun k _ => (Span.under (Utf8.encode head)).contains k).values).get? s = some e ↔
      ∃ r, v.get? (Utf8.encode s) = some r ∧ (∃ t, s = head ++ t) ∧ Entry.ofRecord r = e := by
  have hmem : ∀ d, d ∈ (v.filter fun k _ => (Span.under (Utf8.encode head)).contains k).values.map
      (fun r => ((Entry.ofRecord r).key, Entry.ofRecord r)) ↔
        ∃ r, v.get? (Utf8.encode d.1) = some r ∧ (∃ t, d.1 = head ++ t) ∧ Entry.ofRecord r = d.2 := by
    intro d
    rw [List.mem_map]
    constructor
    · rintro ⟨r, hr, rfl⟩
      obtain ⟨k, hk, hu⟩ := (SortedMap.mem_values_filter v _ r).1 hr
      obtain ⟨hkey, htext⟩ := hv k r hk
      obtain ⟨t, rfl⟩ := htext.under_iff.1 ((Span.contains_under _ _).1 hu)
      have hd : (Entry.ofRecord r).key = head ++ t := by
        rw [Entry.ofRecord, hkey, Utf8.decodeLossy_encode]
      exact ⟨r, by rw [hd]; exact hk, ⟨t, hd⟩, rfl⟩
    · rintro ⟨r, hr, ⟨t, ht⟩, he⟩
      obtain ⟨hkey, htext⟩ := hv _ r hr
      refine ⟨r, (SortedMap.mem_values_filter v _ r).2 ⟨_, hr, (Span.contains_under _ _).2 ?_⟩, ?_⟩
      · exact htext.under_iff.2 ⟨t, by rw [ht]⟩
      · refine Prod.ext ?_ he
        rw [Entry.ofRecord, hkey]
        exact Utf8.decodeLossy_encode _
  rw [Listing.ofRecords, Listing.ofEntries, List.map_map, SortedMap.get?_ofList_iff (fun a ha b hb hab => ?_)]
  · exact hmem (s, e)
  · obtain ⟨r, hr, _, he⟩ := (hmem a).1 ha
    obtain ⟨r', hr', _, he'⟩ := (hmem b).1 hb
    rw [← he, ← he', Option.some.inj (hr.symm.trans (hab ▸ hr'))]

theorem get?_valuesUnder (hv : Keyed v) (t : String) :
    (valuesUnder head v).get? t = (v.get? (Utf8.encode (head ++ t))).map (·.value) := by
  apply Option.ext
  intro x
  rw [valuesUnder, Listing.valueMap, SortedMap.get?_ofList_iff (fun a ha b hb hab => ?_), List.mem_map]
  · constructor
    · rintro ⟨e, he, hx⟩
      obtain ⟨r, hr, ⟨t', ht'⟩, hre⟩ := (get?_listing hv e.1 e.2).1 ((SortedMap.get?_eq_some_iff _ _ _).2 he)
      cases hx
      rw [ht', Text.trimStart_append, ← ht', hr, ← hre]
      rfl
    · intro hx
      obtain ⟨r, hr, rfl⟩ := Option.map_eq_some_iff.1 hx
      have he := (get?_listing hv (head ++ t) (Entry.ofRecord r)).2 ⟨r, hr, ⟨t, rfl⟩, rfl⟩
      refine ⟨(head ++ t, Entry.ofRecord r), (SortedMap.get?_eq_some_iff _ _ _).1 he, ?_⟩
      rw [Text.trimStart_append]
      rfl
  · obtain ⟨d, hd, rfl⟩ := List.mem_map.1 ha
    obtain ⟨d', hd', rfl⟩ := List.mem_map.1 hb
    have he := (SortedMap.get?_eq_some_iff _ _ _).2 hd
    have he' := (SortedMap.get?_eq_some_iff _ _ _).2 hd'
    obtain ⟨_, _, ⟨s, hs⟩, _⟩ := (get?_listing hv d.1 d.2).1 he
    obtain ⟨_, _, ⟨s', hs'⟩, _⟩ := (get?_listing hv d'.1 d'.2).1 he'
    simp only [hs, hs', Text.trimStart_append] at hab
    rw [hs, hab, ← hs'] at he
    rw [Option.some.inj (he.symm.trans he')]

/-! ## Changes -/

namespace Changes

theorem get?_applyTo (c : Changes) (m : ValueMap) (t : String) :
    (c.applyTo m).get? t =
      ((c.upserts.get? t).map (·.value)).or (if t ∈ c.deletions then none else m.get? t) := by
  have hu : c.upserts.entries.map (fun e => (e.1, e.2.value)) =
      (c.upserts.filterMap fun _ e => some e.value).entries := by
    simp [SortedMap.filterMap]
  rw [applyTo, hu, SortedMap.get?_insertAll_entries, SortedMap.get?_filterMap, SortedMap.get?_foldl_erase]
  cases c.upserts.get? t <;> rfl

/-- What an event says of the key that it is about. -/
def tell (m : ValueMap) (kind : EventKind) (e : Entry) : ValueMap :=
  match kind with
  | .put => m.insert e.key e.value
  | .delete => m.erase e.key

theorem add_of_ne {x : Entry} {t : String} (hx : x.key ≠ t) (c : Changes) (kind : EventKind) :
    (c.add kind x).upserts.get? t = c.upserts.get? t ∧ (t ∈ (c.add kind x).deletions ↔ t ∈ c.deletions) := by
  cases kind with
  | put => exact ⟨by simp [add, SortedMap.get?_insert, hx], by simp [add, Ne.symm hx]⟩
  | delete =>
    refine ⟨by simp [add, SortedMap.get?_erase, hx], ?_⟩
    simp only [add]
    split <;> simp [Ne.symm hx]

theorem applyTo_add (c : Changes) (kind : EventKind) (e : Entry) (m : ValueMap) :
    (c.add kind e).applyTo m = tell (c.applyTo m) kind e := by
  refine SortedMap.ext_get? fun t => ?_
  cases kind with
  | put =>
    rw [get?_applyTo, tell, SortedMap.get?_insert, get?_applyTo, add, SortedMap.get?_insert]
    by_cases ht : e.key = t
    · simp [ht]
    · simp [ht, Ne.symm ht]
  | delete =>
    rw [get?_applyTo, tell, SortedMap.get?_erase, get?_applyTo, add, SortedMap.get?_erase]
    by_cases ht : e.key = t
    · subst ht
      by_cases hd : c.deletions.contains e.key = true <;> simp_all
    · have hd : t ∈ (if c.deletions.contains e.key = true then c.deletions else c.deletions ++ [e.key]) ↔
          t ∈ c.deletions := by
        split <;> simp [Ne.symm ht]
      simp only [if_neg ht, hd]

theorem applyTo_ofBatch (trim : Option String) (b : Batch) (m : ValueMap) :
    (ofBatch trim b).applyTo m = b.events.foldl (fun m e => tell m e.kind (entryOf trim e)) m := by
  have h : ∀ (events : List Event) (c : Changes),
      (events.foldl (fun c e => c.add e.kind (entryOf trim e)) c).applyTo m =
        events.foldl (fun m e => tell m e.kind (entryOf trim e)) (c.applyTo m) := by
    intro events
    induction events with
    | nil => exact fun _ => rfl
    | cons e events ih =>
      intro c
      rw [List.foldl_cons, ih, applyTo_add, List.foldl_cons]
  exact h b.events empty

end Changes

/-! ## What a watch makes of batches -/

/-- The map has what the view has under the head. -/
def Mirrors (head : String) (v : SortedMap Bytes Record) (m : ValueMap) : Prop :=
  ∀ t, m.get? t = (v.get? (Utf8.encode (head ++ t))).map (·.value)

namespace Mirrors

theorem valuesUnder (hv : Keyed v) : Mirrors head v (valuesUnder head v) := get?_valuesUnder hv

theorem eq_valuesUnder (h : Mirrors head v m) (hv : Keyed v) : m = Keyspace.valuesUnder head v :=
  SortedMap.ext_get? fun t => (h t).trans (get?_valuesUnder hv t).symm

theorem encode_append_iff {t u : String} : Utf8.encode (head ++ t) = Utf8.encode (head ++ u) ↔ t = u := by
  constructor
  · exact fun he => (String.append_right_inj head).1 (Utf8.encode_inj he)
  · rintro rfl
    rfl

theorem insert (h : Mirrors head v m) (t : String) (r : Record) :
    Mirrors head (v.insert (Utf8.encode (head ++ t)) r) (m.insert t r.value) := by
  intro u
  simp only [SortedMap.get?_insert, encode_append_iff]
  split
  · rfl
  · exact h u

theorem erase (h : Mirrors head v m) (t : String) :
    Mirrors head (v.erase (Utf8.encode (head ++ t))) (m.erase t) := by
  intro u
  simp only [SortedMap.get?_erase, encode_append_iff]
  split
  · rfl
  · exact h u

theorem event (h : Mirrors head v m) {e : Event} {t : String} (ht : e.record.key = Utf8.encode (head ++ t)) :
    Mirrors head (e.applyTo v) (Changes.tell m e.kind (Changes.entryOf (some head) e)) := by
  have hkey : (Changes.entryOf (some head) e).key = t := by
    simp only [Changes.entryOf, Entry.ofRecord, ht, Utf8.decodeLossy_encode, Text.trimStart_append]
  unfold Changes.tell Event.applyTo
  rw [hkey, ht]
  cases e.kind with
  | put => exact h.insert t e.record
  | delete => exact h.erase t

theorem elsewhere (h : Mirrors head v m) {e : Event} (he : ¬ Utf8.encode head <+: e.record.key) :
    Mirrors head (e.applyTo v) m := by
  intro t
  rw [Event.get?_applyTo_of_ne v fun hk => he (by rw [hk, Utf8.encode_append]; exact List.prefix_append _ _)]
  exact h t

theorem events (events : List Event) : ∀ {v m}, Mirrors head v m → (∀ e ∈ events, IsText e.record.key) →
    Mirrors head (events.foldl Event.applyTo v)
      ((events.filter fun e => (Span.under (Utf8.encode head)).contains e.record.key).foldl
        (fun m e => Changes.tell m e.kind (Changes.entryOf (some head) e)) m) := by
  induction events with
  | nil => exact fun h _ => h
  | cons e events ih =>
    intro v m h htext
    have hrest : ∀ d ∈ events, IsText d.record.key := fun d hd => htext d (List.mem_cons_of_mem _ hd)
    rw [List.foldl_cons]
    by_cases hu : (Span.under (Utf8.encode head)).contains e.record.key = true
    · rw [List.filter_cons, if_pos hu, List.foldl_cons]
      obtain ⟨t, ht⟩ := (htext e List.mem_cons_self).under_iff.1 ((Span.contains_under _ _).1 hu)
      exact ih (h.event ht) hrest
    · rw [List.filter_cons, if_neg hu]
      exact ih (h.elsewhere fun hp => hu ((Span.contains_under _ _).2 hp)) hrest

theorem batch (h : Mirrors head v m) (b : Batch) (htext : ∀ e ∈ b.events, IsText e.record.key) :
    Mirrors head (b.applyTo v)
      (((b.within? (.under (Utf8.encode head))).map (Changes.ofBatch (some head))).elim m (·.applyTo m)) := by
  have hm := Mirrors.events b.events h htext
  rcases b.within?_cases (.under (Utf8.encode head)) with ⟨hn, he⟩ | hs
  · rw [he] at hm
    rw [hn]
    exact hm
  · rw [hs, Option.map_some, Option.elim_some, Changes.applyTo_ofBatch]
    exact hm

theorem batches (bs : List Batch) : ∀ {v m}, Mirrors head v m → (∀ b ∈ bs, ∀ e ∈ b.events, IsText e.record.key) →
    Mirrors head (bs.foldl Batch.applyTo v)
      ((bs.filterMap (·.within? (.under (Utf8.encode head)))).foldl
        (fun m b => (Changes.ofBatch (some head) b).applyTo m) m) := by
  induction bs with
  | nil => exact fun h _ => h
  | cons b bs ih =>
    intro v m h htext
    have hb := h.batch b (htext b List.mem_cons_self)
    have hrest : ∀ d ∈ bs, ∀ e ∈ d.events, IsText e.record.key := fun d hd => htext d (List.mem_cons_of_mem _ hd)
    rw [List.foldl_cons, List.filterMap_cons]
    cases hw : b.within? (.under (Utf8.encode head)) with
    | none =>
      rw [hw] at hb
      exact ih hb hrest
    | some d =>
      rw [hw] at hb
      exact ih hb hrest

end Mirrors

end Keyspace
