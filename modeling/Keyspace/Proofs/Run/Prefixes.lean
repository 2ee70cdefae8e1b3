import Keyspace.Proofs.Run.Lines
import Keyspace.Proofs.Run.Reading
import Keyspace.Proofs.Run.Subscription
import Keyspace.Proofs.Store.Prefix
import Keyspace.Watch.Forwarder

/-!
# Keys under a head

What is asked of the span under a prefix is asked of the keys that start with it: reads, deletions and watches by it
are about those keys and about no others (`Client.addresses`), beside anything that others do to the store.
-/

namespace Keyspace

/-! ## What starts with a prefix -/

/-- The records of a view whose keys start with `p`. -/
def SortedMap.under (v : SortedMap Bytes Record) (p : Bytes) : SortedMap Bytes Record := v.filter fun k _ => p <+: k

/-- A batch as far as it is about keys that start with `p`, if it is about any. -/
def Batch.under? (b : Batch) (p : Bytes) : Option Batch :=
  match b.events.filter fun e => p <+: e.record.key with
  | [] => none
  | events => some ⟨b.revision, events⟩

theorem Span.contains_under_eq (p k : Bytes) : (Span.under p).contains k = decide (p <+: k) := by
  rw [Bool.eq_iff_iff, contains_under, decide_eq_true_eq]

theorem Batch.within?_under (b : Batch) (p : Bytes) : b.within? (.under p) = b.under? p := by
  have hevents : (b.events.filter fun e => (Span.under p).contains e.record.key) =
      b.events.filter fun e => p <+: e.record.key := by
    simp only [Span.contains_under_eq]
  cases h : b.events.filter fun e => p <+: e.record.key with
  | nil => simp only [within?, under?, hevents, h]
  | cons e events => simp only [within?, under?, hevents, h]

namespace Store

variable {s s' : Store} {p : Bytes}

/-- Of the keys that are there, those that start with `p` are deleted, in key order, and nothing else is done. -/
structure Clears (s : Store) (p : Bytes) (s' : Store) : Prop where
  latest : s'.latest = s.latest.filter fun k _ => !decide (p <+: k)
  log : s'.log = s.log ++ if (s.latest.under p).keys = [] then [] else [⟨s.revision + 1,
    (s.latest.under p).keys.map fun k => ⟨.delete, ⟨k, [], 0, s.revision + 1, 0, 0⟩⟩⟩]

theorem clears_commit (h : s.Sound) (p : Bytes) : s.Clears p (s.commit [.delete (.under p)]) := by
  have hc := commits_commit h [.delete (.under p)]
  have hpresent : s.draft.present (.under p) = (s.latest.under p).keys := by
    simp only [Draft.present, draft, SortedMap.under, Span.contains_under_eq]
  have hevents : (s.draft.applyAll [.delete (.under p)]).events =
      (s.latest.under p).keys.map fun k => ⟨.delete, ⟨k, [], 0, s.revision + 1, 0, 0⟩⟩ := by
    rw [← hpresent]
    rfl
  refine ⟨?_, ?_⟩
  · rw [hc.latest]
    show (s.latest.filter fun k _ => !(Span.under p).contains k) = _
    simp only [Span.contains_under_eq]
  · rw [hc.log, hevents]
    simp only [List.map_eq_nil_iff]

/-- What a watch of the keys that start with `p` is told when it is opened, and whether it will be told more. -/
def tellsUnder (s : Store) (p : Bytes) (start : Option Int) : Bool × List (Outcome Batch) :=
  match start.filter (0 < ·) with
  | none => (true, [])
  | some r =>
    if r < s.floor then (false, [.error (.revisionCompacted r s.floor)])
    else (true, ((s.log.filter (r ≤ ·.revision)).filterMap (·.under? p)).map .ok)

theorem watch_under (s : Store) (p : Bytes) (start : Option Int) :
    s.watch (.under p) start = s.addFeed (.under p) (s.tellsUnder p start).1 (s.tellsUnder p start).2 := by
  have hreplay : ∀ r, s.replay (.under p) r = (s.log.filter (r ≤ ·.revision)).filterMap (·.under? p) := fun r => by
    simp only [← Batch.within?_under]
    rfl
  unfold watch tellsUnder
  cases start.filter (0 < ·) with
  | none => rfl
  | some r =>
    simp only [hreplay]
    split <;> rfl

end Store

theorem Feed.news_under {f : Feed} {p : Bytes} (hf : f.span = .under p) (bs : List Batch) :
    f.news bs = if f.live then (bs.filterMap (·.under? p)).map .ok else [] := by
  unfold news
  rw [hf]
  simp only [Batch.within?_under]

/-! ## Calls -/

namespace Ledger.Line

variable {p : Bytes} {e : Line}

/-- A backend with the store that the call made tells the new feed of what starts with `p`, as long as it is not closed. -/
def TellsUnder (e : Line) (p : Bytes) (start : Option Int) : Prop :=
  ∀ b : Backend, b.store = e.made → ∀ after : List (Nat × Move),
    (∀ m ∈ after, m.2 ≠ .closeFeed (e.found.expire e.now).nextFeed) →
      ∃ f, (b.moves after).store.feed? (e.found.expire e.now).nextFeed = some f ∧
        b.heard (e.found.expire e.now).nextFeed after ++ f.queue = ((e.found.expire e.now).tellsUnder p start).2 ++
          if ((e.found.expire e.now).tellsUnder p start).1 then ((b.committed after).filterMap (·.under? p)).map .ok
          else []

theorem made_of_range {span : Span} {revision : Option Int} (h : e.call = .range span revision) :
    e.made = e.found.expire e.now := by
  unfold made
  rw [h]
  rfl

theorem Honest.clears (he : e.Honest) (h : e.call = .deleteRange (.under p)) :
    (e.found.expire e.now).Clears p e.made := by
  have hmade : e.made = (e.found.expire e.now).commit [.delete (.under p)] := by
    unfold made
    rw [h]
    rfl
  rw [hmade]
  exact Store.clears_commit (Store.leads_expire he.sound e.now).1 p

theorem Honest.tellsUnder (he : e.Honest) {start : Option Int} (h : e.call = .watch (.under p) start) :
    e.TellsUnder p start := by
  intro b hb after hkept
  obtain ⟨b₀, hb₀, hfound⟩ := he.found
  have hunused : (e.found.expire e.now).Unused := hfound ▸ hb₀.unused.posts (Store.posts_endAll _ hb₀.sound)
  have hmade : e.made = ((e.found.expire e.now).watch (.under p) start).2 := by
    unfold made
    rw [h]
    rfl
  have hsound : b.store.Sound := by
    rw [hb]
    exact (Store.leads_answer he.sound e.now e.call).1
  have hfeed := hunused.feed?_addFeed (.under p) ((e.found.expire e.now).tellsUnder p start).1
    ((e.found.expire e.now).tellsUnder p start).2
  rw [← Store.watch_under, ← hmade, ← hb] at hfeed
  obtain ⟨queue, hf, hheard⟩ := Backend.heard_moves after hsound hfeed hkept
  rw [Feed.news_under rfl] at hheard
  exact ⟨_, hf, hheard⟩

end Ledger.Line

/-! ## Programs -/

open Ledger (Line)

variable {φ : Call → Type} {α : Type}

/-- All lines are of one call; the result, if it has ended well, is made of an answer in one of them. -/
structure Makes (c : Call) (f : c.Answer → α) (o : Option (Outcome α)) (ls : List Line) : Prop where
  calls : ∀ e ∈ ls, e.call = c
  result : ∀ x, o = some (.ok x) → ∃ now found reached a, (⟨now, c, found, reached, .ok a⟩ : Line) ∈ ls ∧ x = f a

theorem Client.throughout_made (cl : Client) (c : Call) (f : c.Answer → α) :
    (cl.call c >>= fun a => pure (f a) : Action Call.Answer φ α).run.Throughout Logs (Makes c f) [] := by
  have hcalls : ∀ {o ls}, Asks c [] o ls → ∀ e ∈ ls, e.call = c := by
    rintro o _ ⟨⟨new, rfl, hnew⟩, -⟩
    exact hnew
  refine Action.throughout_bind (cl.throughout_call c []) (fun ls h => ⟨hcalls h, nofun⟩)
    (fun e ls h => ⟨hcalls h, nofun⟩) fun a ls h => ⟨hcalls h, fun x hx => ?_⟩
  cases hx
  obtain ⟨us, now, found, reached, rfl⟩ := h.heard _ rfl
  exact ⟨now, found, reached, a, List.mem_append_right _ List.mem_cons_self, rfl⟩

theorem Client.throughout_alone (cl : Client) (c : Call) :
    (cl.call c : Action Call.Answer φ c.Answer).run.Throughout Logs (Makes c id) [] := by
  refine (cl.throughout_call c []).mono ?_
  rintro o ls ⟨⟨new, rfl, hnew⟩, hheard⟩
  refine ⟨hnew, fun x hx => ?_⟩
  obtain ⟨us, now, found, reached, he⟩ := hheard _ hx
  exact ⟨now, found, reached, x, he ▸ List.mem_append_right _ List.mem_cons_self, rfl⟩

/-- The operations of a client that are given a head: what each of their calls does, and what they end with. -/
structure Client.Addresses (c : Client) (head : String) (b : Backend) : Prop where
  lists : ∀ {φ : Call → Type} {p : Prog Call.Answer φ (Outcome Snapshot)} {σ : Ledger},
    Ledger.Reached b (c.listUnder head).run p σ →
      (∀ e ∈ σ.lines, e.made = e.found.expire e.now) ∧
        ∀ x, p.result? = some (.ok x) → ∃ e ∈ σ.lines, e.reached = true ∧
          x = ⟨.ofRecords (e.made.latest.under (Utf8.encode head)).values, e.made.revision⟩
  clears : ∀ {φ : Call → Type} {p : Prog Call.Answer φ (Outcome Unit)} {σ : Ledger},
    Ledger.Reached b (c.clearUnder head).run p σ →
      (∀ e ∈ σ.lines, (e.found.expire e.now).Clears (Utf8.encode head) e.made) ∧
        (p.result? = some (.ok ()) → ∃ e ∈ σ.lines, e.reached = true)
  watches : ∀ (r : WatchRequest), r.key = head → r.heads = true →
    ∀ {φ : Call → Type} {p : Prog Call.Answer φ (Outcome FeedId)} {σ : Ledger},
      Ledger.Reached b (c.call (.watch r.span r.start?)).run p σ →
        (∀ e ∈ σ.lines, e.TellsUnder (Utf8.encode head) r.start?) ∧
          ∀ id, p.result? = some (.ok id) → ∃ e ∈ σ.lines, e.reached = true ∧ id = (e.found.expire e.now).nextFeed

theorem Client.addresses_of_reached (c : Client) (head : String) {b : Backend} (hb : b.Reached) : c.Addresses head b where
  lists {φ p σ} h := by
    have hmakes := (h.throughout (c.throughout_made (.range (.under (Utf8.encode head)) none)
      fun a => (⟨.ofRecords a.records, a.revision⟩ : Snapshot))).now
    refine ⟨fun e he => Line.made_of_range (hmakes.calls e he), fun x hx => ?_⟩
    obtain ⟨now, found, reached, a, hmem, rfl⟩ := hmakes.result x hx
    have honest := h.honest hb _ hmem
    obtain ⟨hreached, ha⟩ := honest.answered a rfl
    obtain ⟨hrevision, hrecords⟩ := Store.answer_range honest.sound ha
    refine ⟨_, hmem, hreached, ?_⟩
    rw [Line.made_of_range rfl, hrevision, hrecords]
    simp only [Span.contains_under_eq]
    rfl
  clears {φ p σ} h := by
    have hmakes := (h.throughout (c.throughout_made (.deleteRange (.under (Utf8.encode head))) fun _ => ())).now
    refine ⟨fun e he => (h.honest hb e he).clears (hmakes.calls e he), fun hx => ?_⟩
    obtain ⟨now, found, reached, a, hmem, -⟩ := hmakes.result () hx
    exact ⟨_, hmem, ((h.honest hb _ hmem).answered a rfl).1⟩
  watches r hkey hheads {φ p σ} h := by
    have hspan : r.span = .under (Utf8.encode head) := by
      rw [WatchRequest.span, if_pos hheads, hkey]
    rw [hspan] at h
    have hmakes := (h.throughout (c.throughout_alone (.watch (.under (Utf8.encode head)) r.start?))).now
    refine ⟨fun e he => (h.honest hb e he).tellsUnder (hmakes.calls e he), fun feed hx => ?_⟩
    obtain ⟨now, found, reached, a, hmem, ha⟩ := hmakes.result feed hx
    cases ha
    obtain ⟨hreached, ha⟩ := (h.honest hb _ hmem).answered a rfl
    refine ⟨_, hmem, hreached, ?_⟩
    simp only [Store.answer, Store.watch_under] at ha
    cases ha
    rfl

/-- The span under a prefix holds the keys that start with it, so those are what a client reads, deletes and watches
by it. -/
theorem prefix_exact {b : Backend} (hb : b.Reached) :
    (∀ p k : Bytes, (⟨p, some (afterPrefix p)⟩ : Span).contains k = true ↔ p <+: k) ∧
      ∀ (c : Client) (head : String), c.Addresses head b :=
  ⟨Span.contains_under, fun c head => c.addresses_of_reached head hb⟩

/-- Of four neighbours, one of them no text, three start with the letter and are deleted by it. -/
theorem prefix_exact_neighbours :
    let b := (Backend.ofMembers ["a"]).moves ([[97], [97, 255], [97, 255, 1], [98]].map fun k => (0, .call (.put k [] none)))
    let c := Client.ofConfig Config.standard
    let σ := (Prog.steps Ledger.serve [⟨0, ⟨0, 0⟩, .answered⟩]
      (c.clearUnder "a" : Action Call.Answer (fun _ => Unit) Unit).run ⟨b, []⟩).2
    b.Reached ∧ (⟨[97, 255], some (afterPrefix [97, 255])⟩ : Span).contains [97, 255, 1] = true ∧ c.Addresses "a" b ∧
      (∀ e ∈ σ.lines, (e.found.expire e.now).Clears [97] e.made) ∧ σ.lines.length = 1 ∧ σ.store.latest.keys = [[98]] := by
  intro b c σ
  have hb : b.Reached := Backend.moves_inv (fun now m h => .move h now m) _ (.ofMembers ["a"])
  obtain ⟨hexact, haddresses⟩ := prefix_exact hb
  have hrun : Ledger.Reached b (c.clearUnder "a" : Action Call.Answer (fun _ => Unit) Unit).run _ σ := .turns _ .start
  exact ⟨hb, (hexact _ _).2 (by decide), haddresses c "a", ((haddresses c "a").clears hrun).1, by decide +kernel,
    by decide +kernel⟩

end Keyspace
