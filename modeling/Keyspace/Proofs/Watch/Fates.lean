import Keyspace.Proofs.Watch.Mirror
import Keyspace.Proofs.Watch.Recording

/-!
# What diffs of a watched head tell

The last event of a key in a batch decides what the diff of the batch says of the key. Whether that is an insert, an
update or a deletion goes by the view just before that event, with the batch's own earlier events, and not by the
view before the batch (`relayed_by_last_events`). Only where a batch has one event of a key the two are the same.
-/

namespace Keyspace

open Sim (World)

/-! ## Last events -/

namespace Event

/-- The last event of a key, with what is there of the key just before it. -/
def last? (v : SortedMap Bytes Record) (k : Bytes) : List Event → Option (Option Record × Event)
  | [] => none
  | e :: events => (last? (e.applyTo v) k events).or (if e.record.key = k then some (v.get? k, e) else none)

variable {v : SortedMap Bytes Record} {k : Bytes} {e : Event} {l : List Event} {was : Option Record}

theorem last?_concat (v : SortedMap Bytes Record) (k : Bytes) (l : List Event) (e : Event) :
    last? v k (l ++ [e]) = if e.record.key = k then some ((l.foldl applyTo v).get? k, e) else last? v k l := by
  induction l generalizing v with
  | nil =>
    rw [List.nil_append, last?]
    rfl
  | cons d l ih =>
    rw [List.cons_append, last?, ih, last?, List.foldl_cons]
    by_cases hk : e.record.key = k
    · rw [if_pos hk, if_pos hk, Option.some_or]
    · rw [if_neg hk, if_neg hk]

theorem last?_eq_some (h : last? v k l = some (was, e)) : ∃ before after, l = before ++ e :: after ∧
    e.record.key = k ∧ (before.foldl applyTo v).get? k = was := by
  induction l generalizing v with
  | nil => cases h
  | cons d l ih =>
    rw [last?] at h
    rcases Option.or_eq_some_iff.1 h with h | ⟨_, h⟩
    · obtain ⟨before, after, rfl, hk, hwas⟩ := ih h
      exact ⟨d :: before, after, rfl, hk, hwas⟩
    · split at h
      · rename_i hk
        cases h
        exact ⟨[], l, rfl, hk, rfl⟩
      · cases h

theorem last?_isSome (h : ∃ e ∈ l, e.record.key = k) : (last? v k l).isSome := by
  induction l generalizing v with
  | nil =>
    obtain ⟨e, he, _⟩ := h
    cases he
  | cons d l ih =>
    obtain ⟨e, he, hk⟩ := h
    rw [last?, Option.isSome_or]
    rcases List.mem_cons.1 he with rfl | he
    · rw [if_pos hk, Option.isSome_some, Bool.or_true]
    · rw [ih ⟨e, he, hk⟩, Bool.true_or]

/-- The only event of a key finds what was there at first. -/
theorem was_of_only (h : last? v k l = some (was, e)) (honly : (l.filter (·.record.key = k)).length ≤ 1) :
    was = v.get? k := by
  obtain ⟨before, after, rfl, hk, rfl⟩ := last?_eq_some h
  apply Event.get?_applyAll_of_ne
  intro d hd hdk
  have hpos : 0 < (before.filter (·.record.key = k)).length :=
    List.length_pos_of_mem (List.mem_filter.2 ⟨hd, by simpa using hdk⟩)
  rw [List.filter_append, List.filter_cons, if_pos (by simpa using hk), List.length_append, List.length_cons] at honly
  omega

theorem Chained.last (h : Chained v l) (hv : Counted v) (hl : last? v k l = some (was, e)) :
    (e.kind = .put → (e.record.version = 1 ↔ was = none)) ∧ (e.kind = .delete → was.isSome) := by
  obtain ⟨before, after, rfl, rfl, rfl⟩ := last?_eq_some hl
  obtain ⟨hbefore, hfollows, _⟩ := chained_append.1 h
  refine ⟨hfollows.fresh_iff (hbefore.counted hv), fun hk => ?_⟩
  unfold Follows at hfollows
  rwa [hk] at hfollows

end Event

/-! ## Changes -/

namespace Changes

variable {head t u : String} {v : SortedMap Bytes Record} {l : List Event} {c c' : Changes} {e : Event}

/-- What changes say of a key, by its last event. -/
inductive Says (c : Changes) (head t : String) : Option (Option Record × Event) → Prop
  | nothing (hu : c.upserts.get? t = none) (hd : t ∉ c.deletions) : Says c head t none
  | put (was : Option Record) {e : Event} (hk : e.kind = .put) (hu : c.upserts.get? t = some (entryOf (some head) e))
    (hd : t ∉ c.deletions) : Says c head t (some (was, e))
  | delete (was : Option Record) {e : Event} (hk : e.kind = .delete) (hu : c.upserts.get? t = none)
    (hd : t ∈ c.deletions) : Says c head t (some (was, e))

theorem Says.of_eq {o : Option (Option Record × Event)} (h : c.Says head t o)
    (hu : c'.upserts.get? t = c.upserts.get? t) (hd : t ∈ c'.deletions ↔ t ∈ c.deletions) : c'.Says head t o := by
  cases h with
  | nothing hu' hd' => exact .nothing (hu.trans hu') (hd' ∘ hd.1)
  | put was hk hu' hd' => exact .put was hk (hu.trans hu') (hd' ∘ hd.1)
  | delete was hk hu' hd' => exact .delete was hk (hu.trans hu') (hd.2 hd')

/-- Changes tell what becomes of the keys under the head. -/
def Tells (head : String) (v : SortedMap Bytes Record) (l : List Event) (c : Changes) : Prop :=
  ∀ t, c.Says head t (Event.last? v (Utf8.encode (head ++ t)) l)

theorem Tells.under (h : c.Tells head v l) (he : e.record.key = Utf8.encode (head ++ u)) :
    (c.add e.kind (entryOf (some head) e)).Tells head v (l ++ [e]) := by
  intro t
  have hkey : (entryOf (some head) e).key = u := by
    simp only [entryOf, Entry.ofRecord, he, Utf8.decodeLossy_encode, Text.trimStart_append]
  rw [Event.last?_concat, he]
  by_cases ht : u = t
  · subst ht
    rw [if_pos rfl]
    cases hk : e.kind with
    | put => exact .put _ hk (by simp [add, SortedMap.get?_insert, hkey]) (by simp [add, hkey])
    | delete =>
      refine .delete _ hk (by simp [add, SortedMap.get?_erase, hkey]) ?_
      simp only [add, hkey]
      split <;> simp_all
  · rw [if_neg (mt Mirrors.encode_append_iff.1 ht)]
    obtain ⟨hu, hd⟩ := c.add_of_ne (x := entryOf (some head) e) (hkey ▸ ht) e.kind
    exact (h t).of_eq hu hd

theorem Tells.elsewhere (h : c.Tells head v l) (he : ¬ Utf8.encode head <+: e.record.key) :
    c.Tells head v (l ++ [e]) := by
  intro t
  have hk : e.record.key ≠ Utf8.encode (head ++ t) := by
    intro hk
    rw [hk, Utf8.encode_append] at he
    exact he (List.prefix_append _ _)
  rw [Event.last?_concat, if_neg hk]
  exact h t

theorem Tells.events (events : List Event) : ∀ {l : List Event} {c : Changes}, c.Tells head v l →
    (∀ e ∈ events, IsText e.record.key) →
      ((events.filter fun e => (Span.under (Utf8.encode head)).contains e.record.key).foldl
        (fun c e => c.add e.kind (entryOf (some head) e)) c).Tells head v (l ++ events) := by
  induction events with
  | nil =>
    intro l c h _
    rwa [List.append_nil]
  | cons e events ih =>
    intro l c h htext
    have hrest : ∀ d ∈ events, IsText d.record.key := fun d hd => htext d (List.mem_cons_of_mem _ hd)
    rw [List.append_cons, List.filter_cons]
    by_cases hu : (Span.under (Utf8.encode head)).contains e.record.key = true
    · obtain ⟨u, he⟩ := (htext e List.mem_cons_self).under_iff.1 ((Span.contains_under _ _).1 hu)
      rw [if_pos hu, List.foldl_cons]
      exact ih (h.under he) hrest
    · rw [if_neg hu]
      exact ih (h.elsewhere fun hp => hu ((Span.contains_under _ _).2 hp)) hrest

theorem tells_ofBatch {b d : Batch} (v : SortedMap Bytes Record) (htext : ∀ e ∈ b.events, IsText e.record.key)
    (hd : b.within? (.under (Utf8.encode head)) = some d) : (ofBatch (some head) d).Tells head v b.events := by
  have hempty : empty.Tells head v [] := fun t => .nothing rfl (List.not_mem_nil)
  have h := hempty.events b.events htext
  rcases b.within?_cases (.under (Utf8.encode head)) with ⟨hn, _⟩ | hs
  · cases hn.symm.trans hd
  · cases hs.symm.trans hd
    exact h

end Changes

/-! ## Diffs -/

namespace Diff

variable {d : Diff} {head t : String} {v : SortedMap Bytes Record} {b : Batch}

/-- What a diff says of a key, by its last event and what was there just before that. -/
inductive Judges (d : Diff) (t : String) : Option (Option Record × Event) → Prop
  | nothing (hi : d.inserts.get? t = none) (hu : d.updates.get? t = none) (hd : t ∉ d.deletions.keys) : Judges d t none
  | insert {e : Event} (hk : e.kind = .put) (hi : d.inserts.get? t = some e.record.value)
    (hu : d.updates.get? t = none) (hd : t ∉ d.deletions.keys) : Judges d t (some (none, e))
  | update {r : Record} {e : Event} (hk : e.kind = .put) (hi : d.inserts.get? t = none)
    (hu : d.updates.get? t = some e.record.value) (hd : t ∉ d.deletions.keys) : Judges d t (some (some r, e))
  | delete {r : Record} {e : Event} (hk : e.kind = .delete) (hi : d.inserts.get? t = none)
    (hu : d.updates.get? t = none) (hd : t ∈ d.deletions.keys) : Judges d t (some (some r, e))

theorem mem_keys_ofList {l : List String} : t ∈ (SortedSet.ofList l).keys ↔ t ∈ l := by
  have hone : ∀ a ∈ l.map (·, ()), ∀ b ∈ l.map (·, ()), a.1 = b.1 → a.2 = b.2 := fun _ _ _ _ _ => rfl
  have hget : ((SortedSet.ofList l).get? t).isSome ↔ (t, ()) ∈ l.map (·, ()) := by
    rw [← SortedMap.get?_ofList_iff hone t (), Option.isSome_iff_exists]
    exact ⟨fun ⟨_, hx⟩ => hx, fun hx => ⟨_, hx⟩⟩
  rw [SortedMap.mem_keys_iff, hget]
  simp

/-- Versions tell whether a key was there. -/
theorem judges_toDiff {c : Changes} {o : Option (Option Record × Event)} (h : c.Says head t o)
    (hput : ∀ was e, o = some (was, e) → e.kind = .put → (e.record.version = 1 ↔ was = none))
    (hdelete : ∀ was e, o = some (was, e) → e.kind = .delete → was.isSome) : c.toDiff.Judges t o := by
  have hi : c.toDiff.inserts.get? t = (c.upserts.get? t).bind fun x => if x.version = 1 then some x.value else none :=
    SortedMap.get?_filterMap ..
  have hu : c.toDiff.updates.get? t = (c.upserts.get? t).bind fun x => if x.version = 1 then none else some x.value :=
    SortedMap.get?_filterMap ..
  have hd : t ∈ c.toDiff.deletions.keys ↔ t ∈ c.deletions := mem_keys_ofList
  -- as the diff goes by the version only, that the events are counted is used where it is 1 and where it is not
  cases h with
  | nothing hup hdel => exact .nothing (by rw [hi, hup]; rfl) (by rw [hu, hup]; rfl) (hdel ∘ hd.1)
  | @put was e hk hup hdel =>
    have hversion : (Changes.entryOf (some head) e).version = e.record.version := rfl
    have hvalue : (Changes.entryOf (some head) e).value = e.record.value := rfl
    rw [hup, Option.bind_some, hversion, hvalue] at hi hu
    cases was with
    | none =>
      rw [if_pos ((hput none e rfl hk).2 rfl)] at hi hu
      exact .insert hk hi hu (hdel ∘ hd.1)
    | some r =>
      rw [if_neg (mt (hput (some r) e rfl hk).1 nofun)] at hi hu
      exact .update hk hi hu (hdel ∘ hd.1)
  | @delete was e hk hup hdel =>
    obtain ⟨r, rfl⟩ := Option.isSome_iff_exists.1 (hdelete was e rfl hk)
    exact .delete hk (by rw [hi, hup]; rfl) (by rw [hu, hup]; rfl) (hd.2 hdel)

section
variable {o : Option (Option Record × Event)} {x : Bytes}

theorem Judges.inserts (h : d.Judges t o) :
    d.inserts.get? t = some x ↔ ∃ e, o = some (none, e) ∧ e.kind = .put ∧ e.record.value = x := by
  cases h with
  | nothing hi hu hd => simp [hi]
  | insert hk hi hu hd => simp [hi, hk]
  | update hk hi hu hd => simp [hi]
  | delete hk hi hu hd => simp [hi]

theorem Judges.updates (h : d.Judges t o) :
    d.updates.get? t = some x ↔ ∃ r e, o = some (some r, e) ∧ e.kind = .put ∧ e.record.value = x := by
  cases h with
  | nothing hi hu hd => simp [hu]
  | insert hk hi hu hd => simp [hu]
  | update hk hi hu hd => simp [hu, hk, and_assoc]
  | delete hk hi hu hd => simp [hu, hk]

theorem Judges.deletions (h : d.Judges t o) :
    t ∈ d.deletions.keys ↔ ∃ r e, o = some (some r, e) ∧ e.kind = .delete := by
  cases h with
  | nothing hi hu hd => simp [hd]
  | insert hk hi hu hd => simp [hd]
  | update hk hi hu hd => simp [hd, hk]
  | delete hk hi hu hd => simp [hd, hk, and_assoc]

/-- No key is in two of the three. -/
theorem Judges.apart (h : d.Judges t o) : (t ∈ d.inserts.keys → t ∉ d.updates.keys ∧ t ∉ d.deletions.keys) ∧
    (t ∈ d.updates.keys → t ∉ d.deletions.keys) := by
  rw [SortedMap.mem_keys_iff d.inserts, SortedMap.mem_keys_iff d.updates]
  cases h with
  | nothing hi hu hd => simp [hi, hu]
  | insert hk hi hu hd => simp [hu, hd]
  | update hk hi hu hd => simp [hi, hd]
  | delete hk hi hu hd => simp [hi, hu]

/-- No key with an event is in none of the three. -/
theorem Judges.told (h : d.Judges t o) (ho : o.isSome) :
    t ∈ d.inserts.keys ∨ t ∈ d.updates.keys ∨ t ∈ d.deletions.keys := by
  rw [SortedMap.mem_keys_iff d.inserts, SortedMap.mem_keys_iff d.updates]
  cases h with
  | nothing hi hu hd => cases ho
  | insert hk hi hu hd => exact .inl (hi ▸ rfl)
  | update hk hi hu hd => exact .inr (.inl (hu ▸ rfl))
  | delete hk hi hu hd => exact .inr (.inr hd)

/-- A key that was there before its last event is updated or deleted, and one that was not is inserted. -/
theorem Judges.found (h : d.Judges t o) : (t ∈ d.inserts.keys → ∃ e, o = some (none, e)) ∧
    (t ∈ d.updates.keys ∨ t ∈ d.deletions.keys → ∃ r e, o = some (some r, e)) := by
  simp only [SortedMap.mem_keys_iff d.inserts, SortedMap.mem_keys_iff d.updates]
  cases h with
  | nothing hi hu hd => simp [hi, hu, hd]
  | insert hk hi hu hd => simp [hu, hd]
  | update hk hi hu hd => simp [hi]
  | delete hk hi hu hd => simp [hi]

end

/-- Each key under the head that has an event is classified, by what was there just before its last one, which is
what was there before the batch if it is the key's only event. -/
structure Classifies (d : Diff) (head : String) (v : SortedMap Bytes Record) (b : Batch) : Prop where
  inserts : ∀ t x, d.inserts.get? t = some x ↔ ∃ e,
    Event.last? v (Utf8.encode (head ++ t)) b.events = some (none, e) ∧ e.kind = .put ∧ e.record.value = x
  updates : ∀ t x, d.updates.get? t = some x ↔ ∃ r e,
    Event.last? v (Utf8.encode (head ++ t)) b.events = some (some r, e) ∧ e.kind = .put ∧ e.record.value = x
  deletions : ∀ t, t ∈ d.deletions.keys ↔ ∃ r e,
    Event.last? v (Utf8.encode (head ++ t)) b.events = some (some r, e) ∧ e.kind = .delete
  insertsApart : ∀ t ∈ d.inserts.keys, t ∉ d.updates.keys ∧ t ∉ d.deletions.keys
  updatesApart : ∀ t ∈ d.updates.keys, t ∉ d.deletions.keys
  touched : ∀ t, (∃ e ∈ b.events, e.record.key = Utf8.encode (head ++ t)) →
    t ∈ d.inserts.keys ∨ t ∈ d.updates.keys ∨ t ∈ d.deletions.keys
  once : ∀ t, (b.events.filter (·.record.key = Utf8.encode (head ++ t))).length ≤ 1 →
    (t ∈ d.inserts.keys → v.get? (Utf8.encode (head ++ t)) = none) ∧
      (t ∈ d.updates.keys ∨ t ∈ d.deletions.keys → (v.get? (Utf8.encode (head ++ t))).isSome)

theorem classifies_of_judges (h : ∀ t, d.Judges t (Event.last? v (Utf8.encode (head ++ t)) b.events)) :
    d.Classifies head v b where
  inserts t _ := (h t).inserts
  updates t _ := (h t).updates
  deletions t := (h t).deletions
  insertsApart t := (h t).apart.1
  updatesApart t := (h t).apart.2
  touched t he := (h t).told (Event.last?_isSome he)
  once t honly := by
    refine ⟨fun ht => ?_, fun ht => ?_⟩
    · obtain ⟨e, he⟩ := (h t).found.1 ht
      exact (Event.was_of_only he honly).symm
    · obtain ⟨r, e, he⟩ := (h t).found.2 ht
      exact Event.was_of_only he honly ▸ rfl

end Diff

/-! ## Relayed diffs -/

/-- Whatever is done to the backend, each diff that a relay under a head receives is one of a committed batch, and
classifies the keys by what was there just before their last events in it. -/
theorem relayed_by_last_events (c : Client) (head : String) (start : Int) {names : List String} {w : World}
    (hw : w.backend = .ofMembers names) {y : Relaying} {batches : List Batch}
    (hy : (Relaying.start c ⟨head, start, true, true⟩ w).Recorded batches y) :
    (Rising batches ∧ ∀ r, 1 ≤ r → y.store.floor ≤ r → r ≤ y.store.revision → y.store.asOf r = viewAt batches r) ∧
      ∀ diff, .ok diff ∈ y.received → ∃ b ∈ batches, ∃ d, b.within? (.under (Utf8.encode head)) = some d ∧
        diff = (Changes.ofBatch (some head) d).toDiff ∧
        diff.Classifies head (viewAt batches (b.revision - 1)) b := by
  have hstart : Succession [] w.backend.store := hw ▸ .ofMembers names
  have hsuccession := (hy.recounts (Watching.recounts_start c _ hstart)).2.succession
  have hchronicle := hsuccession.chronicle
  refine ⟨⟨hchronicle.rising, fun r h1 hf hr => hchronicle.asOf_eq_viewAt h1 hf hr⟩, fun diff hd => ?_⟩
  obtain ⟨b, hb, d, hwithin, rfl⟩ := hy.received hw hd
  obtain ⟨hcounted, hchained⟩ := hsuccession.batch hb
  refine ⟨b, hb, d, hwithin, rfl, Diff.classifies_of_judges fun t => ?_⟩
  have htells := Changes.tells_ofBatch (viewAt batches (b.revision - 1)) (hchronicle.text b hb) hwithin
  exact Diff.judges_toDiff (htells t) (fun was e he => (hchained.last hcounted he).1)
    fun was e he => (hchained.last hcounted he).2

namespace Relaying

theorem Recorded.of_eq {x y : Relaying} {batches bs : List Batch} (h : x.Recorded bs y) (he : bs = batches) :
    x.Recorded batches y := he ▸ h

/-- A relay under `p/`, and a backend with nothing in it. -/
def idle : Relaying := .start (.ofConfig Config.standard) ⟨"p/", 0, true, true⟩ ⟨0, .ofMembers ["m"], []⟩

/-- A key is put before the watch is open. One transaction then deletes and writes it, writes one twice, and writes and
deletes one. -/
def rewritten : Relaying :=
  let put : Move := .call (.put (Utf8.encode "p/a") [1] none)
  let txn : Move := .call (.txn (.always [.delete (.single (Utf8.encode "p/a")), .put (Utf8.encode "p/a") [2] none,
    .put (Utf8.encode "p/b") [3] none, .put (Utf8.encode "p/b") [4] none, .put (Utf8.encode "p/c") [5] none,
    .delete (.single (Utf8.encode "p/c"))]))
  let go (x : Relaying) (a : Act) : Relaying := x.act (World.env true) a
  [.work, .work, .relay, .relay, .take].foldl go ((go (idle.moved 0 put) .work).moved 0 txn)

def first : Batch := ⟨2, [⟨.put, ⟨Utf8.encode "p/a", [1], 2, 2, 1, 0⟩⟩]⟩

def rewrite : Batch := ⟨3, [
  ⟨.delete, ⟨Utf8.encode "p/a", [], 0, 3, 0, 0⟩⟩, ⟨.put, ⟨Utf8.encode "p/a", [2], 3, 3, 1, 0⟩⟩,
  ⟨.put, ⟨Utf8.encode "p/b", [3], 3, 3, 1, 0⟩⟩, ⟨.put, ⟨Utf8.encode "p/b", [4], 3, 3, 2, 0⟩⟩,
  ⟨.put, ⟨Utf8.encode "p/c", [5], 3, 3, 1, 0⟩⟩, ⟨.delete, ⟨Utf8.encode "p/c", [], 0, 3, 0, 0⟩⟩]⟩

def rewriteDiff : Diff := ⟨.ofList [("a", [2])], .ofList [("b", [4])], .ofList ["c"]⟩

theorem recorded_rewritten : idle.Recorded [first, rewrite] rewritten := by
  have hput := (Recorded.refl (x := idle)).move 0 (.call (.put (Utf8.encode "p/a") [1] none))
    (fun _ hid => nomatch hid) fun k hk => ⟨"p/a", hk⟩
  have hopen := hput.act .work nofun
  have htxn := hopen.move 0 (.call (.txn (.always [.delete (.single (Utf8.encode "p/a")),
    .put (Utf8.encode "p/a") [2] none, .put (Utf8.encode "p/b") [3] none, .put (Utf8.encode "p/b") [4] none,
    .put (Utf8.encode "p/c") [5] none, .delete (.single (Utf8.encode "p/c"))]))) (fun _ _ h => h) ?_
  · have htold := (htxn.act .work nofun).act .work nofun
    have hrelayed := ((htold.act .relay nofun).act .relay nofun).act .take nofun
    exact hrelayed.of_eq (by decide +kernel)
  · rintro k ⟨op, ho, hp⟩
    simp only [Txn.always, List.mem_cons, List.not_mem_nil, or_false] at ho
    rcases ho with rfl | rfl | rfl | rfl | rfl | rfl
    · exact hp.elim
    · exact ⟨_, hp⟩
    · exact ⟨_, hp⟩
    · exact ⟨_, hp⟩
    · exact ⟨_, hp⟩
    · exact hp.elim

end Relaying

theorem relayed_by_last_events_rewritten :
    let y := Relaying.rewritten
    let batches := [Relaying.first, Relaying.rewrite]
    Relaying.idle.source.world.backend = .ofMembers ["m"] ∧ Relaying.idle.Recorded batches y ∧
      .ok Relaying.rewriteDiff ∈ y.received ∧
      ∃ b ∈ batches, ∃ d, b.within? (.under (Utf8.encode "p/")) = some d ∧
        Relaying.rewriteDiff = (Changes.ofBatch (some "p/") d).toDiff ∧
        Relaying.rewriteDiff.Classifies "p/" (viewAt batches (b.revision - 1)) b := by
  intro y batches
  have hy := Relaying.recorded_rewritten
  have hd : .ok Relaying.rewriteDiff ∈ y.received := mem_of_toOption (by decide +kernel)
  exact ⟨rfl, hy, hd, (relayed_by_last_events _ "p/" 0 rfl hy).2 _ hd⟩

/-- The key that is inserted was there at the revision before, and those that are updated and deleted were not. -/
theorem rewrite_against_view_before :
    let y := Relaying.rewritten
    let batches := [Relaying.first, Relaying.rewrite]
    let before := viewAt batches (Relaying.rewrite.revision - 1)
    let diff := Relaying.rewriteDiff
    Relaying.idle.Recorded batches y ∧ .ok diff ∈ y.received ∧ before = y.store.asOf 2 ∧
      Relaying.rewrite.within? (.under (Utf8.encode "p/")) = some Relaying.rewrite ∧
      diff = (Changes.ofBatch (some "p/") Relaying.rewrite).toDiff ∧
      ("a" ∈ diff.inserts.keys ∧ (before.get? (Utf8.encode "p/a")).isSome) ∧
      ("b" ∈ diff.updates.keys ∧ before.get? (Utf8.encode "p/b") = none) ∧
      "c" ∈ diff.deletions.keys ∧ before.get? (Utf8.encode "p/c") = none := by
  intro y batches before diff
  have hd : .ok diff ∈ y.received := mem_of_toOption (by decide +kernel)
  exact ⟨Relaying.recorded_rewritten, hd, by decide +kernel, by decide +kernel, by decide +kernel, by decide +kernel,
    by decide +kernel, by decide +kernel⟩

end Keyspace
