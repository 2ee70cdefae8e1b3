import Keyspace.Proofs.Watch.GapFree

/-!
# What a watch since a snapshot tells

As long as a watch that nobody leaves tells no failure, what it tells are the news since the snapshot, in
order (`Follows.prefix_news`), and it does not end (`Follows.not_ended`).
-/

namespace Keyspace

open Sim (WatchJob World)

/-! ## Closed channels -/

/-- Whoever is at an end of a channel stays there, and it is closed by nothing but a stop. -/
structure Forwarder.Onward (f f' : Forwarder) : Prop where
  cancelled : f'.cancelled = f.cancelled
  abandoned : f'.out.abandoned = f.out.abandoned
  closed : f.out.closed = false → f'.out.closed = true → f'.isStopped = true

namespace Forwarder.Onward

theorem stop (f : Forwarder) : f.Onward f.stop := ⟨rfl, rfl, fun _ _ => rfl⟩

theorem opened (f : Forwarder) (r : Outcome Unit) : f.Onward (f.opened r) := by
  cases r <;> exact ⟨rfl, rfl, fun ho hc => nomatch ho.symm.trans hc⟩

theorem heard (f : Forwarder) (x : Next (Outcome Batch)) : f.Onward (f.heard x) := by
  rcases x with (e | b) | _ | _
  · exact ⟨rfl, rfl, fun ho hc => nomatch ho.symm.trans hc⟩
  · exact ⟨rfl, rfl, fun ho hc => nomatch ho.symm.trans hc⟩
  · exact ⟨rfl, rfl, fun ho hc => nomatch ho.symm.trans hc⟩
  · exact stop f

end Forwarder.Onward

namespace Sim.WatchJob

variable {j j' : WatchJob} {w w' : World}

/-- The channel of a watch that goes on is open. -/
def Tidy (j : WatchJob) : Prop := j.forwarder.out.closed = true → j.forwarder.isStopped = true

theorem Tidy.take {x : Next (Outcome Changes)} (h : j.Tidy) (hx : j.take = (x, j')) :
    j'.Tidy ∧ (j.Attended → j'.Attended) := by
  obtain ⟨⟨trim, phase, cancelled, capacity, items, closed, abandoned⟩, opening, feed⟩ := j
  cases items <;> cases hx <;> exact ⟨h, fun ha => ⟨ha.1, ha.2⟩⟩

theorem Tidy.step (h : j.Tidy) (hs : j.step? (World.env true) w = some (j', w')) :
    j'.Tidy ∧ (j.Attended → j'.Attended) := by
  have hrun := running_of_step? hs
  have hopen : j.forwarder.out.closed = false := Bool.eq_false_iff.2 fun hc => by simp [h hc] at hrun
  have onward : j.forwarder.Onward j'.forwarder → j'.Tidy ∧ (j.Attended → j'.Attended) := fun ho =>
    ⟨ho.closed hopen, fun ha => ⟨ho.cancelled.trans ha.cancelled, ho.abandoned.trans ha.abandoned⟩⟩
  apply onward
  rcases steps_of_step? hs with ⟨_, rfl, _⟩ | ⟨_, hsteps⟩
  · exact .stop j.forwarder
  cases hsteps with
  | waits => exact ⟨rfl, rfl, fun ho hc => nomatch ho.symm.trans hc⟩
  | opens => exact .opened j.forwarder (.ok ())
  | refused => exact .opened j.forwarder (.error _)
  | hears => exact .heard j.forwarder _
  | ends | leaves => exact .stop j.forwarder
  | sends => exact ⟨rfl, rfl, fun ho hc => nomatch ho.symm.trans hc⟩
  | sendsLast => exact ⟨rfl, rfl, fun _ _ => rfl⟩

end Sim.WatchJob

/-! ## News and failures -/

namespace Follower

variable {head : String} {a : Annals} {s : Snapshot} {j j' : WatchJob} {heard : List (Outcome Changes)}
  {floor : Option Int}

theorem Follows.fetched (h : Follows head a (.watching s j heard floor)) : Fetched head s a := by
  cases floor <;> exact h.1

theorem append_prefix_error {e e' : Failure} (h : heard ++ [.error e] <+: [.error e']) : e = e' := by
  cases heard with
  | nil =>
    obtain ⟨_, ht⟩ := h
    cases ht
    rfl
  | cons y heard =>
    have := h.length_le
    simp at this

theorem Follows.prefix_news (h : Follows head a (.watching s j heard floor)) (hok : ∀ y ∈ heard, ∃ ch, y = .ok ch) :
    heard <+: (news head s.revision a.batches).map fun b => .ok (Changes.ofBatch (some head) b) := by
  have failing : ∀ {e : Failure}, heard <+: [.error e] → heard <+: (news head s.revision a.batches).map fun b =>
      .ok (Changes.ofBatch (some head) b) := by
    intro e hp
    rcases List.prefix_cons_iff.1 hp with rfl | ⟨t, rfl, _⟩
    · exact List.nil_prefix
    · obtain ⟨ch, hch⟩ := hok _ List.mem_cons_self
      cases hch
  cases floor with
  | none =>
    obtain ⟨_, _, ⟨rfl, _⟩ | ⟨k, hflows⟩⟩ := h
    · exact List.nil_prefix
    · exact failing hflows.received_prefix_due
  | some floor =>
    have hp := h.2.received_prefix_due
    unfold due at hp
    split at hp
    · rwa [told_news] at hp
    · exact failing hp

theorem replay_snoc (m : ValueMap) (heard : List (Outcome Changes)) (ch : Changes) :
    replay m (heard ++ [.ok ch]) = ch.applyTo (replay m heard) := by
  rw [replay, List.foldl_append]
  rfl

theorem Follows.replays (h : Follows head a (.watching s j heard floor)) (ha : a.Faithful)
    (hok : ∀ y ∈ heard, ∃ ch, y = .ok ch) :
    ∃ r, s.revision ≤ r ∧ r ≤ a.store.revision ∧
      replay (s.listing.valueMap head) heard = valuesUnder head (a.view r) := by
  have hfetched := h.fetched
  obtain ⟨bs, hbs, rfl⟩ := List.prefix_map_iff.1 (h.prefix_news hok)
  rcases bs.eq_nil_or_concat with rfl | ⟨bs, b, hconcat⟩
  · exact ⟨s.revision, Int.le_refl _, hfetched.le, hfetched.values⟩
  · rw [List.concat_eq_append] at hconcat
    subst hconcat
    -- The revision is that of the last of them.
    have hb := mem_news ha (hbs.subset (List.mem_append_right bs List.mem_cons_self))
    have hR := Int.le_of_lt hb.1
    refine ⟨b.revision, hR, hb.2, ?_⟩
    obtain ⟨t, ht⟩ := hbs
    have hupto := (ht ▸ rising_news ha.rising head s.revision).upto_last
    rw [ht] at hupto
    rw [replay_map, ← hupto, hfetched.values, foldl_news ha hR]

theorem Follows.failure (h : Follows head a (.watching s j (heard ++ [.error e]) floor)) :
    (∃ k : FaultKind, e = k.failure) ∨
      ∃ n, floor = some n ∧ s.revision + 1 < n ∧ e = .revisionCompacted (s.revision + 1) n := by
  cases floor with
  | none =>
    obtain ⟨_, _, ⟨hnil, _⟩ | ⟨k, hflows⟩⟩ := h
    · simp at hnil
    · exact .inl ⟨k, append_prefix_error hflows.received_prefix_due⟩
  | some n =>
    have hp := h.2.received_prefix_due
    unfold due at hp
    split at hp
    · rw [told_news] at hp
      obtain ⟨b, _, hb⟩ := List.mem_map.1 (hp.subset (List.mem_append_right _ List.mem_cons_self))
      cases hb
    · rename_i hn
      exact .inr ⟨n, rfl, by omega, append_prefix_error hp⟩

theorem Follows.not_ended (h : Follows head a (.watching s j heard floor)) (hok : ∀ y ∈ heard, ∃ ch, y = .ok ch)
    (hj : j.Attended) (ht : j.Tidy) : j.take ≠ (.ended, j') := by
  intro hx
  obtain ⟨hi, hc⟩ : j.forwarder.out.items = [] ∧ j.forwarder.out.closed = true := by
    obtain ⟨⟨trim, phase, cancelled, capacity, items, closed, abandoned⟩, opening, feed⟩ := j
    cases items with
    | cons y items => cases hx
    | nil =>
      cases closed
      · cases hx
      · exact ⟨rfl, rfl⟩
  have hstop := ht hc
  -- Nobody left it, so it has told all, and what does not go on tells a failure.
  have told : ∀ {live : Bool} {due : List (Outcome Batch)}, WatchJob.Flows head live due heard j a.store → False := by
    intro live due hflows
    rcases hflows.ends hstop with hcan | hab | ⟨hl, hall⟩
    · cases hj.cancelled.symm.trans hcan
    · cases hj.abandoned.symm.trans hab
    · obtain ⟨e, rfl⟩ := hflows.due_error hl
      rw [hi, List.append_nil, told_error] at hall
      obtain ⟨ch, hch⟩ := hok (.error e) (hall ▸ List.mem_cons_self)
      cases hch
  cases floor with
  | none =>
    obtain ⟨_, _, ⟨_, hopens⟩ | ⟨k, hflows⟩⟩ := h
    · simp [Forwarder.isStopped, hopens.phase] at hstop
    · exact told hflows
  | some n => exact told h.2

end Follower

end Keyspace
