import Keyspace.Prog.Lemmas
import Keyspace.Proofs.Watch.Told

/-!
# Members

The value map of a view under a head has one key for each key of the view there (`size_valuesUnder`). To read
it is one call, made until it is answered; then its map and its revision are those of the store
(`Reads.advance`).
-/

namespace Keyspace

open Sim (WatchJob World WorldProg)

/-! ## Counting -/

/-- How many keys there are that start with a head. -/
def countUnder (head : String) (v : SortedMap Bytes Record) : Nat :=
  (v.filter fun k _ => (Utf8.encode head).isPrefixOf k).size

theorem size_valuesUnder {head : String} {v : SortedMap Bytes Record} (hv : Keyed v) :
    (valuesUnder head v).size = countUnder head v := by
  let name (t : String) : Bytes := Utf8.encode (head ++ t)
  have hinj : ∀ t t', name t = name t' → t = t' := fun t t' h => (String.append_right_inj head).1 (Utf8.encode_inj h)
  -- Neither side names a key twice, so they are as many if they are the same.
  have hnodup : ((valuesUnder head v).keys.map name).Nodup :=
    List.pairwise_map.2 ((valuesUnder head v).keys_nodup.imp fun hne h => hne (hinj _ _ h))
  have hmem : ∀ k, k ∈ (valuesUnder head v).keys.map name ↔
      k ∈ (v.filter fun k _ => (Utf8.encode head).isPrefixOf k).keys := by
    intro k
    rw [List.mem_map, SortedMap.mem_keys_iff, SortedMap.get?_filter]
    constructor
    · rintro ⟨t, ht, rfl⟩
      rw [SortedMap.mem_keys_iff, get?_valuesUnder hv] at ht
      have hp : (Utf8.encode head).isPrefixOf (name t) = true := by
        rw [List.isPrefixOf_iff_prefix]
        simp only [name, Utf8.encode_append]
        exact List.prefix_append _ _
      obtain ⟨r, hr⟩ := Option.isSome_iff_exists.1 ht
      obtain ⟨r, hr, _⟩ := Option.map_eq_some_iff.1 hr
      rw [hr, Option.filter_some, if_pos hp]
      rfl
    · intro hk
      obtain ⟨r, hr⟩ := Option.isSome_iff_exists.1 hk
      obtain ⟨hr, hp⟩ := Option.filter_eq_some_iff.1 hr
      obtain ⟨t, rfl⟩ := (hv k r hr).2.under_iff.1 (List.isPrefixOf_iff_prefix.1 hp)
      refine ⟨t, ?_, rfl⟩
      rw [SortedMap.mem_keys_iff, get?_valuesUnder hv, hr]
      rfl
  have hlen := ((List.perm_ext_iff_of_nodup hnodup (SortedMap.keys_nodup _)).2 hmem).length_eq
  rwa [List.length_map, SortedMap.length_keys, SortedMap.length_keys] at hlen

/-! ## Reading -/

abbrev membersCall (head : String) : Call := .range (.under (Utf8.encode head)) none

/-- What the members are by the answer to a range call. -/
def listed (head : String) (r : Outcome (membersCall head).Answer) : WorldProg (Outcome (ValueMap × Int)) :=
  .done (r.map fun a : RangeAnswer => ((Listing.ofRecords a.records).valueMap head, a.revision))

/-- Members about to be read, or to be read again. -/
def Reads (policy : Retry.Policy) (head : String) (p : WorldProg (Outcome (ValueMap × Int))) : Prop :=
  ∃ q, World.Tries policy (membersCall head) q ∧ p = q.bind (listed head)

theorem reads_members (c : Client) (head : String) : Reads c.policy head (c.members head).run := by
  refine ⟨c.policy.runWith (membersCall head) c.policy.retries, ⟨_, .inl rfl⟩, ?_⟩
  unfold Client.members Client.listUnder Client.list
  rw [Action.run_bind, Action.run_bind, Prog.bind_assoc]
  show (c.policy.runWith (membersCall head) c.policy.retries).bind _ = _
  congr 1
  funext r
  cases r <;> rfl

theorem Reads.result? {policy : Retry.Policy} {head : String} {p : WorldProg (Outcome (ValueMap × Int))}
    (h : Reads policy head p) : p.result? = none := by
  obtain ⟨q, hq, rfl⟩ := h
  rw [Prog.result?_bind, hq.result?]
  rfl

theorem Reads.advance {policy : Retry.Policy} {head : String} {p : WorldProg (Outcome (ValueMap × Int))}
    (h : Reads policy head p) (w : World) :
    ((p.advance (World.env true) w).2.backend.store = w.backend.store ∧
      (Reads policy head (p.advance (World.env true) w).1 ∨
        ∃ e, World.Fails w.backend w.now (membersCall head) e ∧
          (p.advance (World.env true) w).1 = .done (.error e))) ∨
    ∃ (b : Backend) (a : RangeAnswer), b.store = w.backend.store ∧
      b.answer w.now (membersCall head) = (.ok a, (p.advance (World.env true) w).2.backend) ∧
      (p.advance (World.env true) w).1 = .done (.ok ((Listing.ofRecords a.records).valueMap head, a.revision)) := by
  obtain ⟨q, hq, rfl⟩ := h
  rw [Prog.advance_bind]
  rcases hq.answers (World.answers_range _) w with ⟨hstore, htry | ⟨e, he, hp⟩⟩ | ⟨b, a, hb, ha, hp⟩
  · rw [htry.result?]
    exact .inl ⟨hstore, .inl ⟨_, htry, rfl⟩⟩
  · rw [hp]
    exact .inl ⟨hstore, .inr ⟨e, he, rfl⟩⟩
  · rw [hp]
    exact .inr ⟨b, a, hb, ha, rfl⟩

theorem Annals.Faithful.fetched_members {a : Annals} (h : a.Faithful) {b b' : Backend} (hb : b.store = a.store)
    {now : Nat} {head : String} {x : RangeAnswer} (hans : b.answer now (membersCall head) = (.ok x, b')) :
    Fetched head ⟨.ofRecords x.records, x.revision⟩ (a.goOn b') := by
  have hlists := (h.ofStore hb).lists now (membersCall head) fun _ hk => nomatch hk
  rw [move_ofStore hb hans, hans] at hlists
  obtain ⟨hpos, hrev, hrec⟩ := hlists
  refine ⟨hpos, Int.le_of_eq hrev, ?_⟩
  show (Listing.ofRecords x.records).valueMap head = _
  rw [hrec]
  rfl

end Keyspace
