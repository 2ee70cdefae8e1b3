import Keyspace.Proofs.Watch.Mirror

/-!
# Batches collapsed

The changes of a batch say of each key what its last event says, and say it once (`Changes.Sums.ofBatch`). A key is
meant as a watch reports it: different stored keys that are one once they are decoded and cut have their events in
common.
-/

namespace Keyspace.Changes

variable {trim : Option String} {t : String} {events : List Event} {c : Changes}

/-- The last event of a reported key. -/
def last? (trim : Option String) (t : String) (events : List Event) : Option Event :=
  (events.filter fun e => (entryOf trim e).key = t).getLast?

theorem last?_concat (trim : Option String) (t : String) (events : List Event) (e : Event) :
    last? trim t (events ++ [e]) = if (entryOf trim e).key = t then some e else last? trim t events := by
  unfold last?
  rw [List.filter_append]
  by_cases ht : (entryOf trim e).key = t
  · rw [if_pos ht, List.filter_cons_of_pos (by simpa using ht)]
    exact List.getLast?_concat
  · rw [if_neg ht, List.filter_cons_of_neg (by simpa using ht), List.filter_nil, List.append_nil]

/-- One fate for each key that has events, by the last of them. -/
structure Sums (trim : Option String) (events : List Event) (c : Changes) : Prop where
  upserts : ∀ t x, c.upserts.get? t = some x ↔
    ∃ e, last? trim t events = some e ∧ e.kind = .put ∧ entryOf trim e = x
  deletions : ∀ t, t ∈ c.deletions ↔ ∃ e, last? trim t events = some e ∧ e.kind = .delete
  once : c.deletions.Nodup

namespace Sums

theorem nil : Sums trim [] empty where
  upserts t x := by simp [empty, last?]
  deletions t := by simp [empty, last?]
  once := List.nodup_nil

theorem nodup_add (h : c.deletions.Nodup) (kind : EventKind) (x : Entry) : (c.add kind x).deletions.Nodup := by
  cases kind with
  | put => exact h.filter _
  | delete =>
    show (if c.deletions.contains x.key then c.deletions else c.deletions ++ [x.key]).Nodup
    split
    · exact h
    · rename_i hx
      rw [List.contains_iff_mem] at hx
      refine List.nodup_append.2 ⟨h, List.nodup_cons.2 ⟨List.not_mem_nil, List.nodup_nil⟩, fun k hk j hj => ?_⟩
      cases List.mem_singleton.1 hj
      exact fun he => hx (he ▸ hk)

theorem add (h : Sums trim events c) (e : Event) : Sums trim (events ++ [e]) (c.add e.kind (entryOf trim e)) where
  upserts t x := by
    rw [last?_concat]
    by_cases ht : (entryOf trim e).key = t
    · rw [if_pos ht]
      cases hk : e.kind <;> simp [Changes.add, SortedMap.get?_insert, SortedMap.get?_erase, ht, hk]
    · rw [if_neg ht, (c.add_of_ne ht e.kind).1, h.upserts]
  deletions t := by
    rw [last?_concat]
    by_cases ht : (entryOf trim e).key = t
    · rw [if_pos ht]
      cases hk : e.kind with
      | put => simp [Changes.add, ht, hk]
      | delete =>
        simp only [Changes.add, ht]
        split <;> simp_all
    · rw [if_neg ht, (c.add_of_ne ht e.kind).2, h.deletions]
  once := nodup_add h.once e.kind _

theorem ofBatch (trim : Option String) (b : Batch) : Sums trim b.events (ofBatch trim b) := by
  -- over the events that are left, for whatever was taken up before them
  have h : ∀ (rest events : List Event) (c : Changes), Sums trim events c →
      Sums trim (events ++ rest) (rest.foldl (fun c e => c.add e.kind (entryOf trim e)) c) := by
    intro rest
    induction rest with
    | nil =>
      intro events c h
      rwa [List.append_nil]
    | cons e rest ih =>
      intro events c h
      rw [List.append_cons, List.foldl_cons]
      exact ih _ _ (h.add e)
  exact h b.events [] empty nil

theorem apart (h : Sums trim events c) (ht : t ∈ c.upserts.keys) : t ∉ c.deletions := by
  intro hd
  rw [SortedMap.mem_keys_iff, Option.isSome_iff_exists] at ht
  obtain ⟨x, hx⟩ := ht
  obtain ⟨e, he, hput, -⟩ := (h.upserts t x).1 hx
  obtain ⟨d, hd, hdelete⟩ := (h.deletions t).1 hd
  cases he.symm.trans hd
  cases hput.symm.trans hdelete

end Sums

/-- The changes of a batch upsert exactly the keys whose last event is a put, with its entry, and delete exactly those
whose last event is a deletion, each once and none that is upserted. They do to a value map what the events do one
after the other. -/
theorem batch_collapsed (trim : Option String) (b : Batch) :
    (∀ t ∈ (ofBatch trim b).upserts.keys, t ∉ (ofBatch trim b).deletions) ∧
      (ofBatch trim b).deletions.Nodup ∧
      (∀ t x, (ofBatch trim b).upserts.get? t = some x ↔
        ∃ e, last? trim t b.events = some e ∧ e.kind = .put ∧ entryOf trim e = x) ∧
      (∀ t, t ∈ (ofBatch trim b).deletions ↔ ∃ e, last? trim t b.events = some e ∧ e.kind = .delete) ∧
      ∀ m, (ofBatch trim b).applyTo m = b.events.foldl (fun m e => tell m e.kind (entryOf trim e)) m := by
  have h := Sums.ofBatch trim b
  exact ⟨fun _ => h.apart, h.once, h.upserts, h.deletions, applyTo_ofBatch trim b⟩

/-- A key under the head and the one that is left of it without the head are reported as one, and so are two keys that
spell no text. -/
theorem batch_collapsed_alike :
    let put (key value : Bytes) : Event := ⟨.put, ⟨key, value, 2, 2, 1, 0⟩⟩
    let delete (key : Bytes) : Event := ⟨.delete, ⟨key, [], 0, 2, 0, 0⟩⟩
    let b : Batch := ⟨2, [put [112, 97] [1], delete [97], put [255] [2], delete [254], put [97] [3]]⟩
    let c := ofBatch (some "p") b
    "a" ∈ c.upserts.keys ∧ "a" ∉ c.deletions ∧ c.deletions = ["\ufffd"] ∧
      c.upserts.get? "a" = some ⟨"a", [3], 1, 2, 2, 0⟩ ∧
      c.applyTo (.ofList [("a", [0]), ("b", [0]), ("\ufffd", [0])]) = .ofList [("a", [3]), ("b", [0])] := by
  intro put delete b c
  obtain ⟨hapart, -, hupserts, -, happly⟩ := batch_collapsed (some "p") b
  have ha : "a" ∈ c.upserts.keys := by decide +kernel
  have hlast : last? (some "p") "a" b.events = some (put [97] [3]) := by decide +kernel
  refine ⟨ha, hapart "a" ha, by decide +kernel, (hupserts "a" _).2 ⟨_, hlast, rfl, by decide +kernel⟩, ?_⟩
  rw [happly]
  decide +kernel

end Keyspace.Changes
