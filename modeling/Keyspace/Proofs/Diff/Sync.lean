import Keyspace.Proofs.Diff.Application
import Keyspace.Proofs.Run.Reading
import Keyspace.Proofs.Run.Visit
import Mathlib.Data.List.Chain

/-!
# Diffs between heads

A client applies a diff by visits that each do to the value map under the head what the diff does to a map
(`Applied`). After the maps under two heads were read, and their diff applied to the second, a key under that one has
the value that it was read with under the first, if nothing else changed it since (`Synced`): each visit finds the key
as it was read or as it is to be. So the two heads may be the same, or one inside the other.
-/

namespace Keyspace

variable {φ : Call → Type}

/-! ## Listings -/

/-- The visit is answered with a listing of the keys under a head. -/
def Visit.Lists (v : Visit) (head : String) (l : Listing) : Prop :=
  v.call = .range (.under (Utf8.encode head)) none ∧ ∃ a : RangeAnswer,
    (v.found.answer v.now (.range (.under (Utf8.encode head)) none)).1 = .ok a ∧ l = .ofRecords a.records

theorem Visit.Lists.valueMap {v : Visit} {head : String} {l : Listing} (h : v.Lists head l) (hs : v.found.Sound) :
    l.valueMap head = valuesUnder head v.left.latest := by
  obtain ⟨hc, a, ha, rfl⟩ := h
  have hleft : v.left = v.found.expire v.now := by
    unfold left
    rw [hc]
    rfl
  obtain ⟨-, hrecords⟩ := Store.answer_range hs ha
  rw [hrecords, hleft]
  rfl

namespace Desk

/-- The visits are those before and then some that list, of which the last is answered if the listing is. -/
def Fetches (head : String) (before : List Visit) (r : Outcome Snapshot) (σ : Desk) : Prop :=
  ∃ vs, σ.visits = before ++ vs ∧ (∀ v ∈ vs, v.call = .range (.under (Utf8.encode head)) none) ∧
    ∀ x, r = .ok x → ∃ us v, vs = us ++ [v] ∧ v.Lists head x.listing

theorem ensures_listUnder (c : Client) (head : String) (σ : Desk) :
    (c.listUnder head : Action Call.Answer φ Snapshot).run.Ensures visiting (Fetches head σ.visits) σ := by
  let i : Call := .range (.under (Utf8.encode head)) none
  refine Action.ensures_bind (Q := fun a τ => Asks i σ.visits (.ok a) τ) ?_ ((c.ensures_call i σ).mono ?_) ?_
  · rintro e τ τ' ⟨vs, hvs, hc, _⟩ ho
    exact ⟨vs, Eq.trans ho hvs, hc, nofun⟩
  · rintro (e | a) τ ⟨vs, hvs, hc, ha⟩
    · exact ⟨vs, hvs, hc, nofun⟩
    · exact ⟨vs, hvs, hc, ha⟩
  · rintro a τ ⟨vs, hvs, hc, ha⟩ τ' ho
    refine ⟨vs, Eq.trans ho hvs, hc, fun x hx => ?_⟩
    cases hx
    obtain ⟨us, now, s, rfl, hans⟩ := ha a rfl
    exact ⟨us, ⟨now, i, s⟩, rfl, rfl, a, hans, rfl⟩

/-- The visits are those before and then some that commit the diff, at least one if that succeeds. -/
def Tries (head : String) (d : Diff) (before : List Visit) (r : Outcome Unit) (σ : Desk) : Prop :=
  ∃ vs, σ.visits = before ++ vs ∧ (∀ v ∈ vs, v.call = .txn (.always (d.ops head))) ∧
    (d.isEmpty = true → vs = []) ∧ (d.isEmpty = false → r = .ok () → vs ≠ [])

theorem ensures_applyDiff (c : Client) (head : String) (d : Diff) (σ : Desk) :
    (c.applyDiff head d : Action Call.Answer φ Unit).run.Ensures visiting (Tries head d σ.visits) σ := by
  unfold Client.applyDiff
  cases hd : d.isEmpty with
  | true =>
    intro τ ho
    have ho : τ.visits = σ.visits := ho
    exact ⟨[], by simpa using ho, List.forall_mem_nil _, fun _ => rfl, fun h => by rw [hd] at h; cases h⟩
  | false =>
    let i : Call := .txn (.always (d.ops head))
    have hfull : ∀ {vs : List Visit}, d.isEmpty = true → vs = [] := fun h => by rw [hd] at h; cases h
    refine Action.ensures_bind (Q := fun a τ => Asks i σ.visits (.ok a) τ) ?_ ((c.ensures_call i σ).mono ?_) ?_
    · rintro e τ τ' ⟨vs, hvs, hc, _⟩ ho
      exact ⟨vs, Eq.trans ho hvs, hc, hfull, nofun⟩
    · rintro (e | a) τ ⟨vs, hvs, hc, ha⟩
      · exact ⟨vs, hvs, hc, hfull, nofun⟩
      · exact ⟨vs, hvs, hc, ha⟩
    · rintro a τ ⟨vs, hvs, hc, ha⟩
      have hne : vs ≠ [] := by
        obtain ⟨us, now, s, rfl, _⟩ := ha a rfl
        simp
      split
      · exact fun τ' ho => ⟨vs, Eq.trans ho hvs, hc, hfull, nofun⟩
      · exact fun τ' ho => ⟨vs, Eq.trans ho hvs, hc, hfull, fun _ _ => hne⟩

/-- `v` lists the keys under one head and then `w` those under another; the visits before them fail to be heard. -/
structure Compared (src dst : String) (d : Diff) (before : List Visit) (v : Visit) (between : List Visit) (w : Visit)
    (l m : Listing) : Prop where
  before : ∀ u ∈ before, u.call = .range (.under (Utf8.encode src)) none
  source : v.Lists src l
  between : ∀ u ∈ between, u.call = .range (.under (Utf8.encode dst)) none
  target : w.Lists dst m
  diff : d = .between (l.valueMap src) (m.valueMap dst)

def Compares (src dst : String) (start : List Visit) (r : Outcome Diff) (σ : Desk) : Prop :=
  ∀ d, r = .ok d → ∃ before v between w l m, σ.visits = start ++ (before ++ v :: (between ++ [w])) ∧
    Compared src dst d before v between w l m

theorem ensures_diffHeads (c : Client) (src dst : String) (σ : Desk) :
    (c.diffHeads src dst : Action Call.Answer φ Diff).run.Ensures visiting (Compares src dst σ.visits) σ := by
  refine Action.ensures_ok (fun _ _ _ h => nomatch h) (ensures_listUnder c src σ) ?_
  rintro x τ ⟨vs, hvs, hcall, hx⟩
  obtain ⟨before, v, rfl, hv⟩ := hx x rfl
  refine Action.ensures_ok (fun _ _ _ h => nomatch h) (ensures_listUnder c dst τ) ?_
  rintro y τ' ⟨ws, hws, hcall', hy⟩ τ'' ho d hd
  obtain ⟨between, w, rfl, hw⟩ := hy y rfl
  cases hd
  have ho : τ''.visits = τ'.visits := ho
  refine ⟨before, v, between, w, x.listing, y.listing, ?_, ?_, hv, ?_, hw, rfl⟩
  · rw [ho, hws, hvs]
    simp
  · exact fun u hu => hcall u (List.mem_append_left _ hu)
  · exact fun u hu => hcall' u (List.mem_append_left _ hu)

def Syncs (src dst : String) (start : List Visit) (r : Outcome Diff) (σ : Desk) : Prop :=
  ∀ d, r = .ok d → ∃ before v between w l m after, σ.visits = start ++ (before ++ v :: (between ++ w :: after)) ∧
    Compared src dst d before v between w l m ∧ (∀ u ∈ after, u.call = .txn (.always (d.ops dst))) ∧
    (d.isEmpty = true → after = []) ∧ (d.isEmpty = false → after ≠ [])

theorem ensures_sync (c : Client) (src dst : String) (σ : Desk) :
    (c.sync src dst : Action Call.Answer φ Diff).run.Ensures visiting (Syncs src dst σ.visits) σ := by
  refine Action.ensures_ok (fun _ _ _ h => nomatch h) (ensures_diffHeads c src dst σ) fun d τ h => ?_
  refine Action.ensures_ok (fun _ _ _ h => nomatch h) (ensures_applyDiff c dst d τ) ?_
  rintro u τ' ⟨after, hafter, hcall, hnone, hsome⟩ τ'' ho d' hd
  cases hd
  have ho : τ''.visits = τ'.visits := ho
  obtain ⟨before, v, between, w, l, m, hvisits, hcompared⟩ := h d rfl
  refine ⟨before, v, between, w, l, m, after, ?_, hcompared, hcall, hnone, fun hd => hsome hd rfl⟩
  rw [ho, hafter, hvisits]
  simp

end Desk

/-! ## What a diff makes of the store -/

theorem not_puts_range {v : Visit} {span : Span} {revision : Option Int} (h : v.call = .range span revision) {k : Bytes} :
    ¬ v.call.Puts k := by
  rw [h]
  exact id

theorem isText_of_ops {head : String} {d : Diff} {v : Visit} (h : v.call = .txn (.always (d.ops head))) {k : Bytes}
    (hk : v.call.Puts k) : IsText k := by
  rw [h] at hk
  obtain ⟨op, ho | ho, hp⟩ := hk
  · exact Diff.isText_of_puts ho hp
  · cases ho

theorem Visit.applies {v : Visit} (h : v.found.Legible) {head : String} {d : Diff}
    (hc : v.call = .txn (.always (d.ops head))) : d.Applies head (v.found.expire v.now) v.left := by
  have hleft : v.left = (v.found.expire v.now).commit (d.ops head) := by
    unfold left
    rw [hc, Store.answer_ops]
  have hx := Store.legible_expire h v.now
  rw [hleft]
  exact Store.applies_commit hx.sound hx.texts d head

/-- From one visit to the next the value of a key under the head stays as it was. -/
def Undisturbed (head key : String) (visits : List Visit) : Prop :=
  visits.IsChain fun u v =>
    (valuesUnder head (v.found.expire v.now).latest).get? key = (valuesUnder head u.left.latest).get? key

/-- From one visit to the next nothing is committed. -/
def Quiet (visits : List Visit) : Prop :=
  visits.IsChain fun u v => (v.found.expire v.now).revision = u.left.revision

theorem latest_of_quiet {u v : Visit} (h : u.left.MovedTo v.found) (hu : u.left.Legible)
    (hr : (v.found.expire v.now).revision = u.left.revision) : (v.found.expire v.now).latest = u.left.latest := by
  have hexpire := (Store.leads_expire (h.legible hu).sound v.now).mono (Q := fun _ => True) fun _ _ => trivial
  exact ((h.leads hu).trans hexpire).latest_of_revision hr

theorem Quiet.undisturbed {t : Store} (head key : String) (vs : List Visit) : ∀ {u : Visit}, Quiet (u :: vs) →
    u.left.Legible → u.left.Through vs t → (∀ v ∈ vs, ∀ k, v.call.Puts k → IsText k) →
    Undisturbed head key (u :: vs) := by
  induction vs with
  | nil => exact fun _ _ _ _ => .singleton _
  | cons v vs ih =>
    intro u h hl ⟨hmoved, ht⟩ hp
    obtain ⟨hr, h⟩ := List.isChain_cons_cons.1 h
    have hleft : v.left.Legible := Store.legible_answer (hmoved.legible hl) v.now (hp v List.mem_cons_self)
    refine List.isChain_cons_cons.2 ⟨?_, ih h hleft ht fun w hw => hp w (List.mem_cons_of_mem _ hw)⟩
    rw [latest_of_quiet hmoved hl hr]

/-- If the diff of two maps leads from one visit to the next, the last of them leaves a key as the source has it. -/
theorem get?_of_undisturbed {src dst : ValueMap} {head key : String} (vs : List Visit) : ∀ {u : Visit},
    (∀ v ∈ vs, (Diff.between src dst).Applies head (v.found.expire v.now) v.left) → Undisturbed head key (u :: vs) →
    ((valuesUnder head u.left.latest).get? key = src.get? key ∨
      ((valuesUnder head u.left.latest).get? key = dst.get? key ∧ vs ≠ [])) →
    ∀ v ∈ (u :: vs).getLast?, (valuesUnder head v.left.latest).get? key = src.get? key := by
  induction vs with
  | nil =>
    intro u _ _ hu v hv
    cases hv
    exact hu.resolve_right fun h => h.2 rfl
  | cons v vs ih =>
    intro u happlies hch hu
    obtain ⟨hsame, hch⟩ := List.isChain_cons_cons.1 hch
    -- The first visit finds what was read, and one after a lost answer what the last one left: the diff suits both.
    have hvalue : (valuesUnder head v.left.latest).get? key = src.get? key := by
      rw [(happlies v List.mem_cons_self).values]
      refine Diff.get?_applyTo_between ?_
      rw [hsame]
      exact (hu.imp_right And.left).symm
    rw [List.getLast?_cons_cons]
    exact ih (fun w hw => happlies w (List.mem_cons_of_mem _ hw)) hch (.inl hvalue)

/-! ## The two operations -/

/-- What the visits of a program that applied a diff are. -/
structure Applied (head : String) (d : Diff) (r : Outcome Unit) (visits : List Visit) : Prop where
  /-- Each does all that the diff says, at once. -/
  applies : ∀ v ∈ visits, d.Applies head (v.found.expire v.now) v.left
  /-- An empty diff takes none, and changes no map. -/
  empty : d.isEmpty = true → visits = [] ∧ ∀ m, d.applyTo m = m
  /-- If it ends well, the diff was applied. -/
  ok : d.isEmpty = false → r = .ok () → visits ≠ []

/-- What the visits of a program are that read the maps under two heads and applied their diff to the second: `v` and
`w` read the maps, and those in `after` apply the diff. -/
structure Synced (src dst : String) (d : Diff) (v w : Visit) (after : List Visit) (l m : Listing) : Prop where
  source : v.Lists src l
  target : w.Lists dst m
  read : l.valueMap src = valuesUnder src v.left.latest ∧ m.valueMap dst = valuesUnder dst w.left.latest
  diff : d = .between (l.valueMap src) (m.valueMap dst)
  applied : Applied dst d (.ok ()) after
  /-- A key that nothing else changes has in the end the value that it was read with under the first head. -/
  kept : ∀ key, Undisturbed dst key (w :: after) → ∀ u ∈ (w :: after).getLast?,
    (valuesUnder dst u.left.latest).get? key = (l.valueMap src).get? key
  /-- If nothing else is committed, the second map is in the end what the first was read as. -/
  values : Quiet (w :: after) → ∀ u ∈ (w :: after).getLast?, valuesUnder dst u.left.latest = l.valueMap src

theorem Desk.Reached.applied {b : Backend} (hb : b.store.Legible) {c : Client} {head : String} {d : Diff}
    {p : Prog Call.Answer φ (Outcome Unit)} {σ : Desk} (h : Reached b (c.applyDiff head d).run p σ) {r : Outcome Unit}
    (hr : p.result? = some r) : Applied head d r σ.visits := by
  have hensures := h.ensures (Desk.ensures_applyDiff c head d ⟨b, []⟩)
  cases p <;> cases hr
  obtain ⟨vs, hvs, hcall, hnone, hsome⟩ := hensures σ rfl
  rw [List.nil_append] at hvs
  subst hvs
  have hlegible := h.through.legible hb fun v hv _ hk => isText_of_ops (hcall v hv) hk
  exact ⟨fun v hv => v.applies (hlegible v hv) (hcall v hv), fun hd => ⟨hnone hd, Diff.applyTo_of_isEmpty hd⟩, hsome⟩

theorem Desk.Reached.synced {b : Backend} (hb : b.store.Legible) {c : Client} {src dst : String}
    {p : Prog Call.Answer φ (Outcome Diff)} {σ : Desk} (h : Reached b (c.sync src dst).run p σ) {d : Diff}
    (hr : p.result? = some (.ok d)) :
    ∃ before v between w after l m, σ.visits = before ++ v :: (between ++ w :: after) ∧
      Synced src dst d v w after l m := by
  have hensures := h.ensures (Desk.ensures_sync c src dst ⟨b, []⟩)
  cases p <;> cases hr
  obtain ⟨before, v, between, w, l, m, after, hvisits, hcompared, hcall, hnone, hsome⟩ := hensures σ rfl d rfl
  obtain ⟨hbefore, hv, hbetween, hw, rfl⟩ := hcompared
  have hvisits : σ.visits = before ++ v :: (between ++ w :: after) := hvisits
  have hthrough := h.through
  rw [hvisits] at hthrough
  have hlegible : ∀ u ∈ before ++ v :: (between ++ w :: after), u.found.Legible := by
    refine hthrough.legible hb fun u hu k hk => ?_
    simp only [List.mem_append, List.mem_cons] at hu
    rcases hu with hu | rfl | hu | rfl | hu
    · exact absurd hk (not_puts_range (hbefore u hu))
    · exact absurd hk (not_puts_range hv.1)
    · exact absurd hk (not_puts_range (hbetween u hu))
    · exact absurd hk (not_puts_range hw.1)
    · exact isText_of_ops (hcall u hu) hk
  have hvfound : v.found.Legible := hlegible v (by simp)
  have hwfound : w.found.Legible := hlegible w (by simp)
  have hleft : w.left.Legible := Store.legible_answer hwfound w.now fun k hk => absurd hk (not_puts_range hw.1)
  have hafter : w.left.Through after σ.backend.store := by
    rw [show before ++ v :: (between ++ w :: after) = (before ++ v :: between) ++ w :: after by simp] at hthrough
    exact hthrough.drop
  have htarget := hw.valueMap hwfound.sound
  have happlies : ∀ u ∈ after, (Diff.between (l.valueMap src) (m.valueMap dst)).Applies dst (u.found.expire u.now) u.left :=
    fun u hu => u.applies (hlegible u (by simp [hu])) (hcall u hu)
  have hkept : ∀ key, Undisturbed dst key (w :: after) → ∀ u ∈ (w :: after).getLast?,
      (valuesUnder dst u.left.latest).get? key = (l.valueMap src).get? key := by
    refine fun key hch => get?_of_undisturbed after happlies hch ?_
    rw [← htarget]
    by_cases hd : (Diff.between (l.valueMap src) (m.valueMap dst)).isEmpty = true
    · left
      rw [← Diff.applyTo_of_isEmpty hd (m.valueMap dst), Diff.applyTo_between]
    · exact .inr ⟨rfl, hsome (by simpa using hd)⟩
  refine ⟨before, v, between, w, after, l, m, hvisits, hv, hw, ⟨hv.valueMap hvfound.sound, htarget⟩, rfl,
    ⟨happlies, fun hd => ⟨hnone hd, Diff.applyTo_of_isEmpty hd⟩, fun hd _ => hsome hd⟩, hkept, fun hq u hu => ?_⟩
  refine SortedMap.ext_get? fun key => hkept key (hq.undisturbed dst key after hleft hafter ?_) u hu
  exact fun u hu _ => isText_of_ops (hcall u hu)

/-- A listing of the keys under a head is their map, a diff applied to the store is the diff applied to that map, and
the diff of two heads, applied to the second, gives it what was read under the first. -/
theorem Client.diff_applied {b : Backend} (hb : b.Reached) (ht : b.store.Texts) (c : Client) :
    (∀ head now, (b.store.answer now (.range (.under (Utf8.encode head)) none)).1.map
        (fun a : RangeAnswer => (Listing.ofRecords a.records).valueMap head) =
      .ok (valuesUnder head (b.store.expire now).latest)) ∧
    (∀ head d (p : Prog Call.Answer φ (Outcome Unit)) σ, Desk.Reached b (c.applyDiff head d).run p σ →
      b.store.Through σ.visits σ.backend.store ∧ ∀ r, p.result? = some r → Applied head d r σ.visits) ∧
    ∀ src dst (p : Prog Call.Answer φ (Outcome Diff)) σ, Desk.Reached b (c.sync src dst).run p σ →
      b.store.Through σ.visits σ.backend.store ∧ ∀ d, p.result? = some (.ok d) →
        ∃ before v between w after l m, σ.visits = before ++ v :: (between ++ w :: after) ∧
          Synced src dst d v w after l m := by
  have hlegible : b.store.Legible := ⟨hb.sound, ht⟩
  refine ⟨fun head now => ?_, fun head d p σ h => ⟨h.through, fun r hr => h.applied hlegible hr⟩,
    fun src dst p σ h => ⟨h.through, fun d hr => h.synced hlegible hr⟩⟩
  rw [Store.answer_range_latest hb.sound]
  rfl

/-- One head is inside the other, and the answer to the first commit is lost. -/
theorem Client.diff_applied_inside :
    let b := (Backend.ofMembers ["a"]).moves
      [(0, .call (.put (Utf8.encode "s/a") [1] none)), (0, .call (.put (Utf8.encode "s/d/b") [2] none))]
    let c : Client := .ofConfig default
    let d : Diff := ⟨.ofList [("a", [1]), ("d/b", [2])], .empty, .ofList ["b"]⟩
    let at0 (fate : Fate) : Turn := ⟨0, ⟨0, 0⟩, fate⟩
    let out := (c.sync "s/" "s/d/" : Action Call.Answer (fun _ => Unit) Diff).run.steps Desk.serve
      (at0 .answered :: at0 .answered :: at0 (.unheard .proposalDropped) :: [at0 .answered, at0 .answered]) ⟨b, []⟩
    b.Reached ∧ b.store.Texts ∧ out.1.result? = some (.ok d) ∧ out.2.backend.store.revision = 5 ∧
      ∃ before v between w after l m, out.2.visits = before ++ v :: (between ++ w :: after) ∧
        Synced "s/" "s/d/" d v w after l m := by
  intro b c d at0 out
  have hb : b.Reached := Backend.moves_inv (fun now m h => .move h now m) _ (.ofMembers ["a"])
  have ht : b.store.Texts := by
    refine (Backend.legible_moves _ (Store.legible_ofMembers ["a"]) fun m hm k hk => ?_).texts
    simp only [List.mem_cons, List.not_mem_nil, or_false] at hm
    rcases hm with rfl | rfl
    · exact ⟨_, hk⟩
    · exact ⟨_, hk⟩
  have hr : out.1.result? = some (.ok d) := by decide +kernel
  have hout : Desk.Reached b (c.sync "s/" "s/d/").run out.1 out.2 := .turns _ .start
  exact ⟨hb, ht, hr, by decide +kernel, ((diff_applied hb ht c).2.2 _ _ out.1 out.2 hout).2 d hr⟩

end Keyspace
