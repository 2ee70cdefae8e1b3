import Keyspace.Proofs.Store.Draft

/-!
# What lies in a span

The keys that are cut out of the key order for a span are those for which the span's own test holds
(`Store.keysIn_eq_filter`). A read and a deletion go by the first and a watch by the second, so the three see
the same keys (`Store.spans_agree`).
-/

namespace Keyspace

theorem SortedMap.keys_filter {κ ν : Type} [KeyOrder κ] (m : SortedMap κ ν) (keep : κ → Bool) :
    (m.filter fun k _ => keep k).keys = m.keys.filter keep :=
  List.filter_map.symm

variable (s : Store) (span : Span)

namespace Store

theorem keysIn_eq_filter : s.keysIn span = s.histories.keys.filter span.contains := by
  rw [keysIn_eq, SortedMap.keys_filter]

theorem keysIn_nodup : (s.keysIn span).Nodup := (s.keysIn_pairwise span).imp fun h => KeyOrder.ne_of_lt h

theorem events_delete : ((Edit.start s).delete span).events =
    (s.latest.keys.filter span.contains).map fun k => ⟨.delete, ⟨k, [], 0, s.revision + 1, 0, 0⟩⟩ := by
  rw [← SortedMap.keys_filter]
  exact (congrArg Draft.events ((Edit.start s).draft_delete span)).trans (List.nil_append _)

end Store

theorem Feed.select_delete (f : Feed) : f.select ((Edit.start s).delete span).events =
    (s.latest.keys.filter fun k => f.span.contains k && span.contains k).map fun k =>
      ⟨.delete, ⟨k, [], 0, s.revision + 1, 0, 0⟩⟩ := by
  rw [select, Store.events_delete, List.filter_map, List.filter_filter]
  rfl

/-- For a span exactly the keys are cut out that lie in it, in ascending order and each once, and this never needs
a part of the key order that ends before it begins, which there is not. So a read gives what the view has in the
span, a deletion leaves nothing there and all else, and of the deletion a watch is told what lies in its own span. -/
theorem Store.spans_agree (s : Store) (span : Span) :
    s.keysIn? span = some (s.keysIn span) ∧
      (∀ start stop, s.histories.slice? start stop = none ↔ Bytes.lt stop start = true) ∧
      s.keysIn span = s.histories.keys.filter span.contains ∧
      ((s.keysIn span).Pairwise fun a b => Bytes.lt a b = true) ∧ (s.keysIn span).Nodup ∧
      (∀ revision, s.read span revision =
        (s.readRevision revision).map fun r => ((s.asOf r).filter fun k _ => span.contains k).values) ∧
      (∀ k, ((Edit.start s).delete span).store.current k = if span.contains k then none else s.current k) ∧
      ∀ f : Feed, f.select ((Edit.start s).delete span).events =
        (s.latest.keys.filter fun k => f.span.contains k && span.contains k).map fun k =>
          ⟨.delete, ⟨k, [], 0, s.revision + 1, 0, 0⟩⟩ :=
  ⟨s.keysIn?_eq_some span, s.histories.slice?_eq_none_iff, s.keysIn_eq_filter span, s.keysIn_pairwise span,
    s.keysIn_nodup span, s.read_eq span, (Edit.start s).current_delete span, Feed.select_delete s span⟩

/-- A single key, the empty stop, no bound, and stops below, at and above the first key. -/
example :
    let s := (Store.ofMembers []).commit [.put [1] [] none, .put [2] [] none, .put [3] [] none]
    [none, some [], some [0], some [1], some [2], some [3]].map (fun stop => s.keysIn ⟨[2], stop⟩) =
      [[[2]], [], [[2], [3]], [], [], [[2]]] := by decide

end Keyspace
