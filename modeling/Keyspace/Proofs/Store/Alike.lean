import Keyspace.Proofs.Store.Chronicle
import Keyspace.Proofs.Store.Matching

/-!
# Stores that differ in what is compacted

Of two stores that were compacted to different floors, views at and above the higher floor are the same, and so
is what is logged there. What is done to both keeps them so (`Alike.answer`), but that a watch from below the
higher floor is refused by the one store only.
-/

namespace Keyspace

/-! ## Stores -/

/-- A feed that has no more to tell than that what it was to tell of is compacted. -/
def Feed.Vain (f : Feed) (floor : Int) : Prop :=
  f.live = false ∧
    (f.queue = [] ∨ ∃ r n : Int, 0 < r ∧ r < n ∧ n ≤ floor ∧ f.queue = [.error (.revisionCompacted r n)])

theorem Feed.Vain.mono {f : Feed} {floor floor' : Int} (h : f.Vain floor) (hle : floor ≤ floor') : f.Vain floor' := by
  obtain ⟨hl, hq | ⟨r, n, h0, hn, hf, hq⟩⟩ := h
  · exact ⟨hl, .inl hq⟩
  · exact ⟨hl, .inr ⟨r, n, h0, hn, Int.le_trans hf hle, hq⟩⟩

theorem Feed.Vain.offer {f : Feed} {floor : Int} (h : f.Vain floor) (b : Batch) : f.offer b = f :=
  Feed.offerAll_of_not_live [b] h.1

namespace Store

/-- The second store is the first one with more compacted, and has refused feeds for it. -/
structure Alike (s t : Store) (refused : List FeedId) : Prop where
  revision : t.revision = s.revision
  floor : s.floor ≤ t.floor
  latest : t.latest = s.latest
  past : ∀ r, t.floor ≤ r → t.asOf r = s.asOf r
  log : t.log = s.log.filter (t.floor ≤ ·.revision)
  leases : t.leases = s.leases
  nextLease : t.nextLease = s.nextLease
  nextFeed : t.nextFeed = s.nextFeed
  cluster : t.cluster = s.cluster
  feeds : ∀ id, id ∉ refused → t.feed? id = s.feed? id
  vain : ∀ id ∈ refused, ∀ f, t.feed? id = some f → f.Vain t.floor
  issued : ∀ id ∈ refused, id < t.nextFeed
  fresh : ∀ id, t.nextFeed ≤ id → t.feed? id = none

variable {s t : Store} {refused : List FeedId}

theorem Alike.ofMembers (names : List String) : (ofMembers names).Alike (ofMembers names) [] where
  revision := rfl
  floor := Int.le_refl _
  latest := rfl
  past _ _ := rfl
  log := rfl
  leases := rfl
  nextLease := rfl
  nextFeed := rfl
  cluster := rfl
  feeds _ _ := rfl
  vain _ h := nomatch h
  issued _ h := nomatch h
  fresh _ _ := rfl

theorem Alike.matches (h : s.Alike t refused) : s.Matches t :=
  ⟨h.revision, h.latest, h.leases, h.nextLease⟩

theorem Sound.asOf_of_le (h : s.Sound) {r : Int} (hr : s.revision ≤ r) : s.asOf r = s.latest :=
  asOf_eq_latest fun k l hk p hp => Int.le_trans (h.dated k l hk p hp).1 hr

theorem feed?_offer (s : Store) (b : Batch) (id : FeedId) :
    (s.feeds.map (·.offer b)).find? (·.id = id) = (s.feed? id).map (·.offer b) :=
  find?_map_of_id (fun f => Feed.offerAll_id f [b]) s.feeds id

theorem Alike.commit (h : s.Alike t refused) (hs : s.Sound) (ht : t.Sound) {e d : Edit} (he : e.Stands s)
    (hd : d.Stands t) (ha : e.Alike d) : e.commit.Alike d.commit refused := by
  by_cases hn : e.events = []
  · have hn' : d.events = [] := ha.events.trans hn
    rwa [Edit.commit_of_nil hn, Edit.commit_of_nil hn', he.unchanged hn, hd.unchanged hn']
  have hn' : d.events ≠ [] := ha.events ▸ hn
  have hlatest : d.commit.latest = e.commit.latest := by
    unfold Store.latest
    rw [Edit.histories_commit, Edit.histories_commit]
    exact ha.latest
  have hrev : d.commit.revision = e.commit.revision := by
    rw [he.commit_eq hn, hd.commit_eq hn']
    exact ha.revision
  have hpast : ∀ r, d.commit.floor ≤ r → d.commit.asOf r = e.commit.asOf r := by
    intro r hr
    have hes := he.leads (P := fun _ => True) hs fun _ _ => trivial
    have hds := hd.leads (P := fun _ => True) ht fun _ _ => trivial
    have hef : e.commit.floor = s.floor := by rw [he.commit_eq hn]
    have hdf : d.commit.floor = t.floor := by rw [hd.commit_eq hn']
    have her : e.commit.revision = s.revision + 1 := by
      rw [he.commit_eq hn]
      exact he.revision
    have hfl := h.floor
    have hr' := h.revision
    -- Later revisions than the one that was there show the latest view.
    by_cases hle : r ≤ s.revision
    · rw [hds.past hr (by omega), hes.past (by omega) hle, h.past r (by omega)]
    · rw [hds.1.asOf_of_le (by omega), hes.1.asOf_of_le (by omega), hlatest]
  have hkeep : t.floor ≤ e.revision := by
    have := ht.floor_le
    have := h.revision
    have := he.revision
    omega
  rw [he.commit_eq hn, hd.commit_eq hn'] at hlatest hrev hpast ⊢
  rw [ha.revision, ha.events] at hlatest hrev hpast ⊢
  refine ⟨hrev, h.floor, hlatest, hpast, ?_, ha.leases, h.nextLease, h.nextFeed, h.cluster, fun id hid => ?_,
    fun id hid f hf => ?_, h.issued, fun id hid => ?_⟩
  · simp only [List.filter_append, h.log]
    simp [hkeep]
  · show (t.feeds.map _).find? _ = (s.feeds.map _).find? _
    rw [feed?_offer, feed?_offer, h.feeds id hid]
  · have hf : (t.feeds.map _).find? _ = some f := hf
    rw [feed?_offer] at hf
    obtain ⟨g, hg, rfl⟩ := Option.map_eq_some_iff.1 hf
    have hv := h.vain id hid g hg
    rwa [hv.offer]
  · show (t.feeds.map _).find? _ = none
    rw [feed?_offer, h.fresh id hid]
    rfl

/-! ## What is done to both -/

theorem Alike.erase_lease (h : s.Alike t refused) (lease : Int) :
    ({ s with leases := s.leases.erase lease } : Store).Alike { t with leases := t.leases.erase lease } refused :=
  { h with leases := by rw [h.leases] }

theorem Alike.revoke? (h : s.Alike t refused) (hs : s.Sound) (ht : t.Sound) (lease : Int) :
    (t.revoke? lease).isSome = (s.revoke? lease).isSome ∧
      ((s.revoke? lease).getD s).Alike ((t.revoke? lease).getD t) refused := by
  rw [revoke?_eq, revoke?_eq, h.leases]
  cases s.leases.get? lease with
  | none => exact ⟨rfl, h⟩
  | some l =>
    have he := h.erase_lease lease
    exact ⟨rfl, he.commit (hs.erase_lease lease).1 (ht.erase_lease lease).1 (hs.stands_ending lease l)
      (ht.stands_ending lease l) (he.matches.start.removeAll _)⟩

theorem Alike.endAll (leases : List Int) : ∀ {s t : Store}, s.Alike t refused → s.Sound → t.Sound →
    (s.endAll leases).Alike (t.endAll leases) refused := by
  induction leases with
  | nil => exact fun h _ _ => h
  | cons lease leases ih =>
    intro s t h hs ht
    exact ih (h.revoke? hs ht lease).2 (hs.revoke? lease) (ht.revoke? lease)

theorem Alike.expire (h : s.Alike t refused) (hs : s.Sound) (ht : t.Sound) (now : Nat) :
    (s.expire now).Alike (t.expire now) refused := by
  have hdue : t.due now = s.due now := by rw [due, due, h.leases]
  show (s.endAll (s.due now)).Alike (t.endAll (t.due now)) refused
  rw [hdue]
  exact h.endAll _ hs ht

theorem Alike.txn (h : s.Alike t refused) (hs : s.Sound) (ht : t.Sound) (now : Nat) (x : Txn) :
    (t.answer now (.txn x)).1 = (s.answer now (.txn x)).1 ∧
      (s.answer now (.txn x)).2.Alike (t.answer now (.txn x)).2 refused := by
  have hx := h.expire hs ht now
  have hm := hx.matches
  refine ⟨(hm.txn hs ht x).1, ?_⟩
  rw [answer_txn, answer_txn, hm.chosen, hm.missingLease?]
  cases (s.expire now).missingLease? ((s.expire now).chosen x) with
  | some l => exact hx
  | none =>
    have hxs : (s.expire now).Sound := (leads_expire hs now).1
    have hxt : (t.expire now).Sound := (leads_expire ht now).1
    exact hx.commit hxs hxt (hxs.stands_applyAll _) (hxt.stands_applyAll _) (hm.start.applyAll _)

/-! ## Feeds -/

theorem Alike.addFeed (h : s.Alike t refused) (span : Span) (live : Bool) (queue : List (Outcome Batch)) :
    (s.addFeed span live queue).2.Alike (t.addFeed span live queue).2 refused :=
  { h with
    nextFeed := congrArg (· + 1) h.nextFeed
    feeds := fun id hid => by rw [feed?_addFeed, feed?_addFeed, h.feeds id hid, h.nextFeed]
    vain := fun id hid f hf => by
      have hlt := h.issued id hid
      rw [feed?_addFeed, if_neg (Nat.ne_of_gt hlt), Option.or_none] at hf
      exact h.vain id hid f hf
    issued := fun id hid => Nat.lt_succ_of_lt (h.issued id hid)
    fresh := fun id hid => by
      have hid : t.nextFeed < id := hid
      rw [feed?_addFeed, if_neg (Nat.ne_of_lt hid), h.fresh id (Nat.le_of_lt hid)]
      rfl }

theorem Alike.addVain (h : s.Alike t refused) (span : Span) (live : Bool) (queue : List (Outcome Batch))
    {r : Int} (h0 : 0 < r) (hr : r < t.floor) :
    (s.addFeed span live queue).2.Alike
      (t.addFeed span false [.error (.revisionCompacted r t.floor)]).2 (t.nextFeed :: refused) :=
  { h with
    nextFeed := congrArg (· + 1) h.nextFeed
    feeds := fun id hid => by
      obtain ⟨hne, hid⟩ := not_or.1 (mt List.mem_cons.2 hid)
      rw [feed?_addFeed, feed?_addFeed, h.feeds id hid, if_neg (Ne.symm hne), if_neg (h.nextFeed ▸ Ne.symm hne)]
    vain := fun id hid f hf => by
      rw [feed?_addFeed] at hf
      by_cases he : t.nextFeed = id
      · rw [if_pos he, h.fresh id (Nat.le_of_eq he)] at hf
        cases hf
        exact ⟨rfl, .inr ⟨r, t.floor, h0, hr, Int.le_refl _, rfl⟩⟩
      · rw [if_neg he, Option.or_none] at hf
        exact h.vain id ((List.mem_cons.1 hid).resolve_left (Ne.symm he)) f hf
    issued := fun id hid => by
      rcases List.mem_cons.1 hid with rfl | hid
      · exact Nat.lt_succ_self _
      · exact Nat.lt_succ_of_lt (h.issued id hid)
    fresh := fun id hid => by
      have hid : t.nextFeed < id := hid
      rw [feed?_addFeed, if_neg (Nat.ne_of_lt hid), h.fresh id (Nat.le_of_lt hid)]
      rfl }

/-- The feed that a call is refused, as it would tell of what is compacted. -/
def refuses (s : Store) : Call → List FeedId
  | .watch _ (some r) => if 0 < r ∧ r < s.floor then [s.nextFeed] else []
  | _ => []

theorem Alike.dueAt (h : s.Alike t refused) (span : Span) {r : Int} (hr : t.floor ≤ r) :
    t.dueAt span r = s.dueAt span r := by
  have hf := h.floor
  have hlog : t.log.filter (r ≤ ·.revision) = s.log.filter (r ≤ ·.revision) := by
    rw [h.log, List.filter_filter]
    apply List.filter_congr
    intro b _
    rw [← Bool.decide_and, decide_eq_decide]
    omega
  unfold Store.dueAt
  rw [if_pos hr, if_pos (by omega), hlog]

theorem Alike.watch (h : s.Alike t refused) (span : Span) (start : Option Int) :
    (t.watch span start).1 = (s.watch span start).1 ∧
      (s.watch span start).2.Alike (t.watch span start).2 (t.refuses (.watch span start) ++ refused) := by
  have now : start.filter (0 < ·) = none → t.refuses (.watch span start) = [] →
      (t.watch span start).1 = (s.watch span start).1 ∧
        (s.watch span start).2.Alike (t.watch span start).2 (t.refuses (.watch span start) ++ refused) := by
    intro hn he
    rw [he]
    unfold Store.watch
    rw [hn]
    exact ⟨h.nextFeed, h.addFeed span true []⟩
  cases start with
  | none => exact now rfl rfl
  | some r =>
    by_cases h0 : 0 < r
    · rw [watch_eq s span h0, watch_eq t span h0, refuses]
      refine ⟨h.nextFeed, ?_⟩
      by_cases hr : r < t.floor
      · have hlive : decide (t.floor ≤ r) = false := decide_eq_false (by omega)
        have hqueue : t.dueAt span r = [.error (.revisionCompacted r t.floor)] := if_neg (by omega)
        rw [if_pos ⟨h0, hr⟩, hlive, hqueue]
        exact h.addVain span _ _ h0 hr
      · have hf := h.floor
        rw [if_neg (by omega), h.dueAt span (by omega), decide_eq_true (by omega), decide_eq_true (by omega)]
        exact h.addFeed span true _
    · exact now (by simpa using h0) (if_neg fun hc => h0 hc.1)

end Store

/-! ## Calls -/

def EndpointStatus.sizeless (a : EndpointStatus) : EndpointStatus := { a with dbSize := 0, dbSizeInUse := 0 }

/-- What a call answers below a floor, and if it answers `a` where less is compacted. -/
def Likewise (floor : Int) : (c : Call) → Outcome c.Answer → Outcome c.Answer → Prop
  | .range _ (some r), a, b => if 0 < r ∧ r < floor then b = .error (.revisionCompacted r floor) else b = a
  | .endpointStatus _, a, b => b.map EndpointStatus.sizeless = a.map EndpointStatus.sizeless
  | _, a, b => b = a

namespace Store

variable {s t : Store} {refused : List FeedId}

theorem Alike.asOf_revision (h : s.Alike t refused) (hs : s.Sound) (ht : t.Sound) :
    t.asOf t.revision = s.asOf s.revision := by
  rw [ht.asOf_revision, hs.asOf_revision, h.latest]

theorem Alike.read (h : s.Alike t refused) (hs : s.Sound) (ht : t.Sound) (span : Span) (revision : Option Int) :
    (∀ r, revision = some r → ¬ (0 < r ∧ r < t.floor)) → t.read span revision = s.read span revision := by
  intro hr
  have hnow := h.asOf_revision hs ht
  rw [read_eq, read_eq]
  cases revision with
  | none => simp only [readRevision, Except.map, hnow]
  | some r =>
    have hr := hr r rfl
    have hf := h.floor
    simp only [readRevision]
    by_cases h0 : r ≤ 0
    · rw [if_pos h0, if_pos h0]
      simp only [Except.map, hnow]
    · have hlt : ¬ r < t.floor := by omega
      have hls : ¬ r < s.floor := by omega
      rw [if_neg h0, if_neg h0, if_neg hlt, if_neg hls, h.revision]
      by_cases hc : s.revision < r
      · rw [if_pos hc]
        rfl
      · rw [if_neg hc]
        simp only [Except.map, h.past r (by omega)]

theorem Alike.range (h : s.Alike t refused) (hs : s.Sound) (ht : t.Sound) (now : Nat) (span : Span)
    (revision : Option Int) (hf : (t.expire now).floor = t.floor) :
    Likewise t.floor (.range span revision) (s.answer now (.range span revision)).1
      (t.answer now (.range span revision)).1 := by
  have hx := h.expire hs ht now
  have hxs : (s.expire now).Sound := (leads_expire hs now).1
  have hxt : (t.expire now).Sound := (leads_expire ht now).1
  have same : (∀ r, revision = some r → ¬ (0 < r ∧ r < t.floor)) →
      (t.answer now (.range span revision)).1 = (s.answer now (.range span revision)).1 := by
    intro hr
    simp only [Store.answer]
    rw [hx.read hxs hxt span revision (hf ▸ hr), hx.revision]
  cases revision with
  | none => exact same fun _ he => by cases he
  | some r =>
    unfold Likewise
    simp only
    split
    · rename_i hr
      simp only [Store.answer, read_eq, readRevision]
      rw [if_neg (by omega), if_pos (by omega), hf]
      rfl
    · rename_i hr
      exact same fun _ he => by cases he; exact hr

theorem Alike.moveLeader (h : s.Alike t refused) (hs : s.Sound) (ht : t.Sound) (now : Nat) (member : Nat) :
    (t.answer now (.moveLeader member)).1 = (s.answer now (.moveLeader member)).1 ∧
      (s.answer now (.moveLeader member)).2.Alike (t.answer now (.moveLeader member)).2 refused := by
  have hx := h.expire hs ht now
  simp only [Store.answer, Store.moveLeader, hx.cluster]
  cases (s.expire now).cluster.hosts.find? fun m => m.member.id = member with
  | none => exact ⟨rfl, hx⟩
  | some m =>
    simp only
    by_cases hl : m.member.learner = true
    · rw [if_pos hl, if_pos hl]
      exact ⟨rfl, hx⟩
    rw [if_neg hl, if_neg hl]
    by_cases hr : (!m.responsive) = true
    · rw [if_pos hr, if_pos hr]
      exact ⟨rfl, hx⟩
    rw [if_neg hr, if_neg hr]
    by_cases hm : (s.expire now).cluster.leader = member
    · rw [if_pos hm, if_pos hm]
      exact ⟨rfl, hx⟩
    · rw [if_neg hm, if_neg hm]
      exact ⟨rfl, { hx with cluster := rfl }⟩

/-- The end of leases changes nothing but what is stored, what is told of it, and the leases. -/
theorem endAll_eq (leases : List Int) : ∀ {s : Store}, s.Sound → ∃ revision histories log left feeds,
    s.endAll leases = { s with revision, histories, log, leases := left, feeds } := by
  induction leases with
  | nil => exact fun {s} _ => ⟨s.revision, s.histories, s.log, s.leases, s.feeds, rfl⟩
  | cons lease leases ih =>
    intro s h
    rw [endAll_cons]
    obtain ⟨revision, histories, log, left, feeds, heq⟩ := ih (h.revoke? lease)
    have hone : ∃ revision histories log left feeds, (s.revoke? lease).getD s =
        { s with revision, histories, log, leases := left, feeds } := by
      rw [revoke?_eq]
      cases s.leases.get? lease with
      | none => exact ⟨s.revision, s.histories, s.log, s.leases, s.feeds, rfl⟩
      | some l =>
        show ∃ revision histories log left feeds, (s.ending lease l).commit = _
        have he := h.stands_ending lease l
        by_cases hn : (s.ending lease l).events = []
        · rw [Edit.commit_of_nil hn, he.unchanged hn]
          exact ⟨_, _, _, _, _, rfl⟩
        · rw [he.commit_eq hn]
          exact ⟨_, _, _, _, _, rfl⟩
    obtain ⟨_, _, _, _, _, hone⟩ := hone
    rw [heq, hone]
    exact ⟨_, _, _, _, _, rfl⟩

theorem kept_endAll (leases : List Int) (h : s.Sound) :
    (s.endAll leases).floor = s.floor ∧ (s.endAll leases).nextFeed = s.nextFeed := by
  obtain ⟨_, _, _, _, _, heq⟩ := endAll_eq leases h
  rw [heq]
  exact ⟨rfl, rfl⟩

theorem Alike.answer (h : s.Alike t refused) (hs : s.Sound) (ht : t.Sound) (now : Nat) (c : Call) :
    Likewise t.floor c (s.answer now c).1 (t.answer now c).1 ∧
      (s.answer now c).2.Alike (t.answer now c).2 (t.refuses c ++ refused) := by
  have hx := h.expire hs ht now
  obtain ⟨hf, hn⟩ := kept_endAll (t.due now) ht
  cases c with
  | range span revision => exact ⟨h.range hs ht now span revision hf, hx⟩
  | put key value lease =>
    rw [answer_put, answer_put]
    obtain ⟨ha, hb⟩ := h.txn hs ht now (.always [.put key value lease])
    exact ⟨congrArg (Except.map _) ha, hb⟩
  | deleteRange span =>
    rw [answer_delete, answer_delete, hx.latest]
    obtain ⟨ha, hb⟩ := h.txn hs ht now (.always [.delete span])
    refine ⟨?_, hb⟩
    simp only [Likewise, ha]
  | txn x => exact h.txn hs ht now x
  | watch span start =>
    have hr : (t.expire now).refuses (.watch span start) = t.refuses (.watch span start) := by
      unfold refuses
      have hf : (t.expire now).floor = t.floor := hf
      have hn : (t.expire now).nextFeed = t.nextFeed := hn
      rw [hf, hn]
    obtain ⟨ha, hb⟩ := hx.watch span start
    rw [hr] at hb
    exact ⟨congrArg Except.ok ha, hb⟩
  | leaseGrant ttl =>
    simp only [Store.answer]
    split
    · exact ⟨rfl, h⟩
    · refine ⟨?_, ?_⟩
      · show Except.ok _ = Except.ok _
        simp only [grant, hx.nextLease]
      · exact { hx with
          nextLease := congrArg (· + 1) hx.nextLease
          leases := by simp only [grant, hx.nextLease, hx.leases] }
  | leaseRevoke lease =>
    obtain ⟨hsome, hb⟩ := hx.revoke? (leads_expire hs now).1 (leads_expire ht now).1 lease
    simp only [Store.answer]
    cases hrs : (s.expire now).revoke? lease with
    | none =>
      cases hrt : (t.expire now).revoke? lease with
      | none => exact ⟨rfl, hx⟩
      | some u => simp [hrs, hrt] at hsome
    | some u =>
      cases hrt : (t.expire now).revoke? lease with
      | none => simp [hrs, hrt] at hsome
      | some v =>
        rw [hrs, hrt] at hb
        exact ⟨rfl, hb⟩
  | memberList =>
    refine ⟨?_, hx⟩
    show Except.ok _ = Except.ok _
    simp only [Store.memberList, hx.cluster, hx.revision]
  | endpointStatus endpoint =>
    refine ⟨?_, hx⟩
    show Except.map _ _ = Except.map _ _
    simp only [Store.answer, Store.endpointStatus, hx.cluster, hx.revision]
    cases (s.expire now).cluster.hosts.find? fun m => m.member.clientUrls.contains endpoint with
    | none => rfl
    | some m =>
      simp only
      split <;> rfl
  | moveLeader member => exact h.moveLeader hs ht now member

end Store

end Keyspace
