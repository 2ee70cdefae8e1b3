import Keyspace.Proofs.Watch.Members

/-!
# A wait among others

A wait reads the members and then follows a watch, while others do what they like to the backend and until
it is cancelled. What it takes for the members is what they were at the revision up to which it was told
(`Keeps.act`).
-/

namespace Keyspace

open Sim (WaitJob WatchJob World)

/-! ## Waits -/

namespace Sim

theorem WatchJob.onlyFeeds_stop (j : WatchJob) (w : World) : w.backend.store.OnlyFeeds (j.stop w).2.backend.store := by
  unfold stop settleFeed
  split
  · exact w.backend.store.onlyFeeds_closeFeed _
  · exact .refl _

namespace WaitJob

variable {j j' : WaitJob} {w w' : World}

theorem settle_of_none (h : j.wait.outcome = none) : j.settle w = (j, w) := by
  unfold settle
  rw [h]

theorem settle_of_some {o : Outcome WaitOutcome} (h : j.wait.outcome = some o) (hj : j.settle w = (j', w')) :
    j' = { j with source := none } ∧ w.backend.store.OnlyFeeds w'.backend.store := by
  unfold settle at hj
  rw [h] at hj
  cases hs : j.source with
  | none =>
    rw [hs] at hj
    cases hj
    exact ⟨by rw [← hs], .refl _⟩
  | some s =>
    rw [hs] at hj
    cases hj
    exact ⟨rfl, s.onlyFeeds_stop w⟩

structure Stays (j j' : WaitJob) : Prop where
  client : j'.client = j.client
  group : j'.wait.group = j.wait.group
  threshold : j'.wait.threshold = j.wait.threshold
  cancelled : j'.wait.cancelled = j.wait.cancelled

theorem Stays.settle {i : WaitJob} (h : j.Stays i) (hj : i.settle w = (j', w')) : j.Stays j' := by
  unfold WaitJob.settle at hj
  split at hj <;> cases hj
  · exact ⟨h.client, h.group, h.threshold, h.cancelled⟩
  · exact h

theorem stays_follow (j : WaitJob) (m : ValueMap) (source : Option WatchJob) :
    j.Stays { j with wait := j.wait.follow m, source } := by
  have h : (j.wait.follow m).group = j.wait.group ∧ (j.wait.follow m).threshold = j.wait.threshold ∧
      (j.wait.follow m).cancelled = j.wait.cancelled := by
    unfold ThresholdWait.follow
    dsimp only
    split <;> exact ⟨rfl, rfl, rfl⟩
  exact ⟨rfl, h.1, h.2.1, h.2.2⟩

theorem stays_heard (j : WaitJob) (y : Next (Outcome Changes)) (source : Option WatchJob) :
    j.Stays { j with wait := j.wait.heard y, source } := by
  rcases y with (e | ch) | _ | _
  · exact ⟨rfl, rfl, rfl, rfl⟩
  · exact j.stays_follow _ source
  · exact ⟨rfl, rfl, rfl, rfl⟩
  · exact ⟨rfl, rfl, rfl, rfl⟩

theorem stays_step (hs : j.step? (World.env true) w = some (j', w')) : j.Stays j' := by
  unfold step? at hs
  split at hs
  · cases hs
  split at hs
  · exact Stays.settle (i := { j with wait := j.wait.finish (.ok .cancelled) }) ⟨rfl, rfl, rfl, rfl⟩ (Option.some.inj hs)
  split at hs
  · unfold stepReading at hs
    split at hs
    · split at hs
      split at hs
      · cases hs
        exact ⟨rfl, rfl, rfl, rfl⟩
      · cases hs
        exact ⟨rfl, rfl, rfl, rfl⟩
      · exact (j.stays_follow _ _).settle (Option.some.inj hs)
    · cases hs
  · split at hs
    · obtain ⟨out, _, he⟩ := Option.map_eq_some_iff.1 hs
      cases he
      exact ⟨rfl, rfl, rfl, rfl⟩
    · exact (j.stays_heard _ _).settle (Option.some.inj hs)

end WaitJob

end Sim

/-- What a wait was told by now. -/
structure Waiter.Account where
  /-- The revision at which it read the members. -/
  read : Option Int
  heard : List (Outcome Changes)
  /-- What was compacted when the feed of its watch was opened. -/
  floor : Option Int

structure Waiter where
  now : Nat
  annals : Annals
  job : WaitJob
  account : Waiter.Account

namespace Waiter

def store (x : Waiter) : Store := x.annals.store

def world (x : Waiter) : World := ⟨x.now, x.annals.backend, []⟩

/-- Beside members of these names, about to read the group. -/
def start (c : Client) (group : String) (threshold : Nat) (names : List String) : Waiter :=
  ⟨0, ⟨.ofMembers names, []⟩, .start c group threshold, ⟨none, [], none⟩⟩

inductive Act
  | other (m : Move)
  | wait (time : Nat)
  | work
  /-- The watch of the wait goes on by itself. -/
  | forward
  | cancel
  /-- The watch of a wait that is cancelled gets to know that. -/
  | signal

/-- Others put only text, and do not touch the feed of the wait. -/
def Allows (x : Waiter) : Act → Prop
  | .other m => (∀ k, m.Puts k → IsText k) ∧
      ∀ s, x.job.source = some s → ∀ id, s.feed = some id → ¬ m.Uses id
  | .signal => x.job.wait.cancelled = true
  | _ => True

def Account.given (a : Account) : Option (Outcome (ValueMap × Int)) → Account
  | some (.ok (_, revision)) => { a with read := some revision }
  | _ => a

def Account.fed (a : Account) (s : WatchJob) (w : World) : Account :=
  { a with floor := a.floor.or (s.feed.map fun _ => w.backend.store.floor) }

/-- What a wait is told in a step that leaves it as `j`. -/
def note (x : Waiter) (j : WaitJob) (w : World) : Account :=
  if x.job.wait.cancelled then x.account
  else match x.job.source with
  | none => x.account.given (x.job.reading.advance (World.env true) x.world).1.result?
  | some s =>
    match s.take with
    | (.item y, _) => { x.account with heard := x.account.heard ++ [y] }
    | _ => j.source.elim x.account fun s => x.account.fed s w

def work (x : Waiter) : Waiter :=
  match x.job.step? (World.env true) x.world with
  | none => x
  | some (j, w) => ⟨w.now, x.annals.goOn w.backend, j, x.note j w⟩

theorem work_of_none {x : Waiter} (h : x.job.step? (World.env true) x.world = none) : x.work = x := by
  unfold work
  rw [h]

theorem work_of_some {x : Waiter} {j : WaitJob} {w : World} (h : x.job.step? (World.env true) x.world = some (j, w)) :
    x.work = ⟨w.now, x.annals.goOn w.backend, j, x.note j w⟩ := by
  unfold work
  rw [h]

def forward (x : Waiter) : Waiter :=
  match x.job.source with
  | none => x
  | some s =>
    match s.step? (World.env true) x.world with
    | none => x
    | some (s, w) => ⟨w.now, x.annals.goOn w.backend, { x.job with source := some s }, x.account.fed s w⟩

def act (x : Waiter) : Act → Waiter
  | .other m => { x with annals := x.annals.move x.now m }
  | .wait time => { x with now := time }
  | .work => x.work
  | .forward => x.forward
  | .cancel => { x with job := x.job.cancel }
  | .signal => { x with job := { x.job with source := x.job.source.map WatchJob.cancel } }

inductive Leads : Waiter → Waiter → Prop
  | refl (x : Waiter) : Leads x x
  | act {x y : Waiter} (h : Leads x y) (a : Act) (ha : y.Allows a) : Leads x (y.act a)

theorem Leads.trans {x y z : Waiter} (h : Leads x y) (h' : Leads y z) : Leads x z := by
  induction h' with
  | refl => exact h
  | act _ a ha ih => exact ih.act a ha

/-! ## What a wait keeps -/

open Follower (Follows news replay)

/-- Of a wait that follows the watch `s` since the snapshot `sn`. -/
structure Watches (group : String) (threshold : Nat) (x : Waiter) (s : WatchJob) (sn : Snapshot) : Prop where
  read : x.account.read = some sn.revision
  follows : Follows group x.annals (.watching sn s x.account.heard x.account.floor)
  ok : ∀ y ∈ x.account.heard, ∃ ch, y = .ok ch
  members : x.job.wait.members = some (replay (sn.listing.valueMap group) x.account.heard)
  /-- There never were enough. -/
  below : ∀ k ≤ x.account.heard.length, (replay (sn.listing.valueMap group) (x.account.heard.take k)).size < threshold
  tidy : s.Tidy
  attended : x.job.wait.cancelled = false → s.Attended

/-- Of a wait that began as `x₀`. -/
def Ended (group : String) (threshold : Nat) (x₀ x : Waiter) : Outcome WaitOutcome → Prop
  | .ok .reached => ∃ R r, x.account.read = some R ∧ 1 ≤ R ∧ R ≤ r ∧ r ≤ x.store.revision ∧
      threshold ≤ countUnder group (x.annals.view r)
  | .ok .cancelled => x.job.wait.cancelled = true
  | .error e => (x.account.read = none ∧ ∃ y, Leads x₀ y ∧ Leads y x ∧
        World.Fails y.annals.backend y.now (membersCall group) e) ∨
      ∃ R told, x.account.read = some R ∧ x.account.heard = told ++ [.error e] ∧ ((∃ k : FaultKind, e = k.failure) ∨
        ∃ m, x.account.floor = some m ∧ R + 1 < m ∧ e = .revisionCompacted (R + 1) m)

structure Keeps (c : Client) (group : String) (threshold : Nat) (x₀ x : Waiter) : Prop where
  path : Leads x₀ x
  faithful : x.annals.Faithful
  client : x.job.client = c
  asked : x.job.wait.group = group ∧ x.job.wait.threshold = threshold
  reads : x.job.source = none → x.job.wait.outcome = none →
    x.account = ⟨none, [], none⟩ ∧ Reads c.policy group x.job.reading
  watches : ∀ s, x.job.source = some s → x.job.wait.outcome = none ∧ ∃ sn, x.Watches group threshold s sn
  ended : ∀ o, x.job.wait.outcome = some o → Ended group threshold x₀ x o

variable {c : Client} {group : String} {threshold : Nat} {x₀ x y : Waiter}

theorem keeps_start (c : Client) (group : String) (threshold : Nat) (names : List String) :
    Keeps c group threshold (start c group threshold names) (start c group threshold names) where
  path := .refl _
  faithful := .ofMembers names
  client := rfl
  asked := ⟨rfl, rfl⟩
  reads _ _ := ⟨rfl, reads_members c group⟩
  watches _ h := nomatch h
  ended _ h := nomatch h

theorem Ended.mono {o : Outcome WaitOutcome} (h : Ended group threshold x₀ x o) (hl : Leads x y)
    (hxy : x.annals.Precedes y.annals) (ha : y.account = x.account)
    (hc : x.job.wait.cancelled = true → y.job.wait.cancelled = true) : Ended group threshold x₀ y o := by
  rcases o with e | _ | _
  · rcases h with ⟨hr, z, hz, hzx, hf⟩ | h
    · exact .inl ⟨ha ▸ hr, z, hz, hzx.trans hl, hf⟩
    · refine .inr ?_
      rw [ha]
      exact h
  · obtain ⟨R, r, hR, h1, hRr, hr, hn⟩ := h
    refine ⟨R, r, ha ▸ hR, h1, hRr, Int.le_trans hr hxy.revision_le, ?_⟩
    rw [hxy.view r hr]
    exact hn
  · exact hc h

theorem Keeps.ends {o : Outcome WaitOutcome} (h : Keeps c group threshold x₀ x) (hl : Leads x y)
    (hstay : x.job.Stays y.job) (ha : y.annals.Faithful) (hs : y.job.source = none) (ho : y.job.wait.outcome = some o)
    (he : Ended group threshold x₀ y o) : Keeps c group threshold x₀ y where
  path := h.path.trans hl
  faithful := ha
  client := hstay.client.trans h.client
  asked := ⟨hstay.group.trans h.asked.1, hstay.threshold.trans h.asked.2⟩
  reads _ hn := nomatch ho.symm.trans hn
  watches _ hn := nomatch hs.symm.trans hn
  ended o' ho' := by
    cases ho.symm.trans ho'
    exact he

theorem Keeps.goesOn (h : Keeps c group threshold x₀ x) (hl : Leads x y) (hstay : x.job.Stays y.job)
    (ha : y.annals.Faithful) (ho : y.job.wait.outcome = none)
    (hr : y.job.source = none → y.account = ⟨none, [], none⟩ ∧ Reads c.policy group y.job.reading)
    (hw : ∀ s, y.job.source = some s → ∃ sn, y.Watches group threshold s sn) : Keeps c group threshold x₀ y where
  path := h.path.trans hl
  faithful := ha
  client := hstay.client.trans h.client
  asked := ⟨hstay.group.trans h.asked.1, hstay.threshold.trans h.asked.2⟩
  reads hs _ := hr hs
  watches s hs := ⟨ho, hw s hs⟩
  ended _ ho' := nomatch ho.symm.trans ho'

/-! ## Acts -/

theorem Keeps.other (h : Keeps c group threshold x₀ x) {m : Move} (hm : x.Allows (.other m)) :
    Keeps c group threshold x₀ (x.act (.other m)) ∧ x.annals.Passes (x.act (.other m)).annals := by
  have hp := h.faithful.passes_move x.now hm.1
  have hl : Leads x (x.act (.other m)) := (Leads.refl x).act _ hm
  refine ⟨{ h with
    path := h.path.trans hl
    faithful := hp.faithful
    watches := fun s hs => ?_
    ended := fun o ho => (h.ended o ho).mono hl hp.precedes rfl id }, hp⟩
  obtain ⟨ho, sn, hw⟩ := h.watches s hs
  exact ⟨ho, sn, { hw with follows := hw.follows.move h.faithful x.now (hm.2 s hs) }⟩

theorem Keeps.wait (h : Keeps c group threshold x₀ x) (time : Nat) :
    Keeps c group threshold x₀ (x.act (.wait time)) := by
  have hl : Leads x (x.act (.wait time)) := (Leads.refl x).act _ trivial
  refine { h with
    path := h.path.trans hl
    watches := fun s hs => ?_
    ended := fun o ho => (h.ended o ho).mono hl (.refl _) rfl id }
  obtain ⟨ho, sn, hw⟩ := h.watches s hs
  exact ⟨ho, sn, { hw with }⟩

theorem Keeps.cancel (h : Keeps c group threshold x₀ x) : Keeps c group threshold x₀ (x.act .cancel) := by
  have hl : Leads x (x.act .cancel) := (Leads.refl x).act _ trivial
  refine { h with
    path := h.path.trans hl
    watches := fun s hs => ?_
    ended := fun o ho => (h.ended o ho).mono hl (.refl _) rfl fun _ => rfl }
  obtain ⟨ho, sn, hw⟩ := h.watches s hs
  exact ⟨ho, sn, { hw with attended := nofun }⟩

theorem Keeps.signal (h : Keeps c group threshold x₀ x) (hx : x.Allows .signal) :
    Keeps c group threshold x₀ (x.act .signal) := by
  have hl : Leads x (x.act .signal) := (Leads.refl x).act _ hx
  refine { h with
    path := h.path.trans hl
    reads := fun hs ho => h.reads (Option.map_eq_none_iff.1 hs) ho
    watches := fun s hs => ?_
    ended := fun o ho => (h.ended o ho).mono hl (.refl _) rfl id }
  obtain ⟨i, hi, rfl⟩ := Option.map_eq_some_iff.1 hs
  obtain ⟨ho, sn, hw⟩ := h.watches i hi
  refine ⟨ho, sn, { hw with
    follows := hw.follows.set rfl (fun _ ho => ⟨rfl, ho.cancel⟩) fun _ _ hf => hf.cancel
    attended := fun hc => nomatch hc.symm.trans (hx : x.job.wait.cancelled = true) }⟩

theorem Keeps.forwards (h : Keeps c group threshold x₀ x) {s s' : WatchJob} {w : World} (hs : x.job.source = some s)
    (hstep : s.step? (World.env true) x.world = some (s', w))
    (hy : y = ⟨w.now, x.annals.goOn w.backend, { x.job with source := some s' }, x.account.fed s' w⟩) (hl : Leads x y) :
    Keeps c group threshold x₀ y ∧ x.annals.Passes y.annals := by
  subst hy
  obtain ⟨ho, sn, hw⟩ := h.watches s hs
  obtain ⟨hfollows, hp⟩ := hw.follows.work h.faithful hstep
  obtain ⟨htidy, hatt⟩ := hw.tidy.step hstep
  refine ⟨h.goesOn hl ⟨rfl, rfl, rfl, rfl⟩ hp.faithful ho nofun fun i hi => ?_, hp⟩
  cases hi
  exact ⟨sn, hw.read, hfollows, hw.ok, hw.members, hw.below, htidy,
    fun hc => hatt (hw.attended hc)⟩

theorem Keeps.follow (h : Keeps c group threshold x₀ x) (sn : Snapshot) (acc : Account) {s : WatchJob} {m : ValueMap}
    {j : WaitJob} {w w' : World} (hp : x.annals.Passes (x.annals.goOn w.backend))
    (hf : Follows group (x.annals.goOn w.backend) (.watching sn s acc.heard acc.floor))
    (ho : x.job.wait.outcome = none) (hread : acc.read = some sn.revision)
    (hok : ∀ y ∈ acc.heard, ∃ ch, y = .ok ch) (hm : m = replay (sn.listing.valueMap group) acc.heard)
    (hbelow : ∀ k < acc.heard.length, (replay (sn.listing.valueMap group) (acc.heard.take k)).size < threshold)
    (htidy : s.Tidy) (hatt : x.job.wait.cancelled = false → s.Attended)
    (hj : WaitJob.settle { x.job with wait := x.job.wait.follow m, source := some s } w = (j, w'))
    (hy : y = ⟨w'.now, x.annals.goOn w'.backend, j, acc⟩) (hl : Leads x y) :
    Keeps c group threshold x₀ y ∧ x.annals.Passes y.annals := by
  subst hy
  by_cases hsize : threshold ≤ m.size
  · have hreached : (x.job.wait.follow m).outcome = some (.ok .reached) := by
      rw [ThresholdWait.follow, if_pos (h.asked.2 ▸ hsize)]
      rfl
    obtain ⟨rfl, honly⟩ := WaitJob.settle_of_some (j := { x.job with wait := x.job.wait.follow m, source := some s })
      hreached hj
    obtain ⟨hp', hbatches⟩ := hp.onlyFeeds honly
    refine ⟨h.ends hl (x.job.stays_follow m none) hp'.faithful rfl hreached ?_, hp'⟩
    obtain ⟨r, hR, hr, hview⟩ := hf.replays hp.faithful hok
    refine ⟨sn.revision, r, hread, hf.fetched.pos, hR, ?_, ?_⟩
    · exact Int.le_trans hr (Int.le_of_eq honly.revision.symm)
    · have hsame : (x.annals.goOn w'.backend).view r = (x.annals.goOn w.backend).view r :=
        congrArg (viewAt · r) hbatches
      have hcount : (valuesUnder group ((x.annals.goOn w.backend).view r)).size = _ :=
        size_valuesUnder (keyed_viewAt hp.faithful.text r)
      rw [hsame]
      exact hcount ▸ hview ▸ hm ▸ hsize
  · have hnone : x.job.wait.follow m = { x.job.wait with members := some m } := by
      rw [ThresholdWait.follow, if_neg (h.asked.2 ▸ hsize)]
    have hset := WaitJob.settle_of_none (w := w)
      (j := { x.job with wait := { x.job.wait with members := some m }, source := some s }) ho
    rw [hnone, hset] at hj
    cases hj
    refine ⟨h.goesOn hl ⟨rfl, rfl, rfl, rfl⟩ hp.faithful ho nofun fun i hi => ?_, hp⟩
    cases hi
    refine ⟨sn, hread, hf, hok, congrArg some hm, fun k hk => ?_, htidy, hatt⟩
    rcases Nat.lt_or_eq_of_le hk with hk | rfl
    · exact hbelow k hk
    · rw [List.take_length, ← hm]
      omega

theorem Keeps.reading (h : Keeps c group threshold x₀ x) (hs : x.job.source = none) (ho : x.job.wait.outcome = none)
    {j : WaitJob} {w : World} (hstep : x.job.stepReading (World.env true) x.world = some (j, w))
    (hstay : x.job.Stays j)
    (hy : y = ⟨w.now, x.annals.goOn w.backend, j,
      x.account.given (x.job.reading.advance (World.env true) x.world).1.result?⟩) (hl : Leads x y) :
    Keeps c group threshold x₀ y ∧ x.annals.Passes y.annals := by
  subst hy
  obtain ⟨hacc, hreads⟩ := h.reads hs ho
  have hadv := hreads.advance x.world
  unfold WaitJob.stepReading at hstep
  split at hstep
  case isFalse => cases hstep
  obtain ⟨out, hout⟩ : ∃ out, x.job.reading.advance (World.env true) x.world = out := ⟨_, rfl⟩
  rw [hout] at hadv hstep hl ⊢
  obtain ⟨p, v⟩ := out
  -- The members are to be read again, cannot be read, or were read.
  rcases hadv with ⟨hstore, hagain | ⟨e, hfails, rfl⟩⟩ | ⟨b, a, hb, hans, rfl⟩
  · have hp := h.faithful.passes_onlyFeeds (b := v.backend) (hstore ▸ .refl _)
    have hr : p.result? = none := hagain.result?
    simp only [hr] at hstep hl ⊢
    cases hstep
    refine ⟨h.goesOn hl hstay hp.faithful ho (fun _ => ⟨hacc, hagain⟩) fun s hs' => ?_, hp⟩
    cases hs.symm.trans hs'
  · have hp := h.faithful.passes_onlyFeeds (b := v.backend) (hstore ▸ .refl _)
    cases hstep
    refine ⟨h.ends (o := .error e) hl hstay hp.faithful hs rfl (.inl ⟨?_, x, h.path, hl, hfails⟩), hp⟩
    exact congrArg Account.read hacc
  · have hp := h.faithful.passes_answer hb (c := membersCall group) (fun _ hk => nomatch hk) hans
    have hfetched := h.faithful.fetched_members hb hans
    have hpos : 1 ≤ a.revision := hfetched.pos
    have hnil : x.account.heard = [] := congrArg Account.heard hacc
    have hnone : x.account.floor = none := congrArg Account.floor hacc
    have hopens : WatchJob.Opens group (a.revision + 1) (.start x.job.client (x.job.wait.watchRequest a.revision)) := by
      rw [ThresholdWait.watchRequest, h.asked.1]
      exact WatchJob.opens_start x.job.client group (by omega)
    refine h.follow ⟨.ofRecords a.records, a.revision⟩
      (x.account.given (some (.ok ((Listing.ofRecords a.records).valueMap group, a.revision))))
      hp ?_ ho rfl ?_ ?_ ?_ ?_ ?_ (Option.some.inj hstep) rfl hl
    · show Follows group _ (.watching _ _ x.account.heard x.account.floor)
      rw [hnil, hnone]
      exact ⟨hfetched, rfl, .inl ⟨rfl, hopens⟩⟩
    · intro y hy
      have hy : y ∈ x.account.heard := hy
      rw [hnil] at hy
      cases hy
    · show _ = replay _ x.account.heard
      rw [hnil]
      rfl
    · intro k hk
      have hk : k < x.account.heard.length := hk
      rw [hnil] at hk
      cases hk
    · exact nofun
    · exact fun _ => ⟨rfl, rfl⟩

theorem Keeps.listening (h : Keeps c group threshold x₀ x) {s : WatchJob} (hs : x.job.source = some s)
    {j : WaitJob} {w : World} (hc : x.job.wait.cancelled = false) (hstep : x.job.step? (World.env true) x.world = some (j, w))
    (hy : y = ⟨w.now, x.annals.goOn w.backend, j, x.note j w⟩) (hl : Leads x y) :
    Keeps c group threshold x₀ y ∧ x.annals.Passes y.annals := by
  obtain ⟨ho, sn, hw⟩ := h.watches s hs
  have hstay := WaitJob.stays_step hstep
  obtain ⟨⟨next, s'⟩, htake⟩ : ∃ out, s.take = out := ⟨_, rfl⟩
  simp only [WaitJob.step?, ho, hc, hs, htake] at hstep
  simp only [note, hc, hs, htake] at hy
  have hself := h.faithful.goOn_self
  obtain ⟨htidy, hatt⟩ := hw.tidy.take htake
  have told : ∀ {y}, next = .item y →
      Follows group x.annals (.watching sn s' (x.account.heard ++ [y]) x.account.floor) := by
    rintro y rfl
    exact hw.follows.set (congrArg (·.2.feed) htake).symm (fun _ ho => (ho.take htake).elim) fun _ _ hf => hf.take htake
  cases next with
  | empty =>
    obtain ⟨⟨i, v⟩, hi, hout⟩ := Option.map_eq_some_iff.1 hstep
    cases hout
    exact h.forwards hs hi hy hl
  | ended => exact (hw.follows.not_ended hw.ok (hw.attended hc) hw.tidy htake).elim
  | item z =>
    rcases z with e | ch
    · obtain ⟨rfl, honly⟩ := WaitJob.settle_of_some rfl (Option.some.inj hstep)
      have hp := h.faithful.passes_onlyFeeds honly
      subst hy
      refine ⟨h.ends hl hstay hp.faithful rfl rfl (.inr ⟨sn.revision, x.account.heard, hw.read, rfl, ?_⟩), hp⟩
      exact (told rfl).failure
    · have hok : ∀ z ∈ x.account.heard ++ [.ok ch], ∃ ch, z = .ok ch := by
        intro z hz
        rcases List.mem_append.1 hz with hz | hz
        · exact hw.ok z hz
        · exact ⟨ch, List.mem_singleton.1 hz⟩
      refine h.follow sn { x.account with heard := x.account.heard ++ [.ok ch] } ?_ ?_ ho hw.read hok ?_ ?_ htidy
        (fun hc => hatt (hw.attended hc)) (Option.some.inj hstep) hy hl
      · exact hself.symm ▸ h.faithful.passes
      · exact hself.symm ▸ told rfl
      · rw [hw.members]
        exact (Follower.replay_snoc _ _ ch).symm
      · intro k hk
        have hk : k ≤ x.account.heard.length := by
          simp only [List.length_append, List.length_singleton] at hk
          omega
        rw [List.take_append_of_le_length hk]
        exact hw.below k hk

theorem Keeps.work (h : Keeps c group threshold x₀ x) :
    Keeps c group threshold x₀ x.work ∧ x.annals.Passes x.work.annals := by
  cases hstep : x.job.step? (World.env true) x.world with
  | none =>
    rw [work_of_none hstep]
    exact ⟨h, h.faithful.passes⟩
  | some out =>
    obtain ⟨j, w⟩ := out
    have hy := work_of_some hstep
    have hl : Leads x x.work := (Leads.refl x).act .work trivial
    have hstay := WaitJob.stays_step hstep
    cases ho : x.job.wait.outcome with
    | some o => simp [WaitJob.step?, ho] at hstep
    | none =>
      cases hc : x.job.wait.cancelled with
      | true =>
        simp only [WaitJob.step?, ho, hc] at hstep
        obtain ⟨rfl, honly⟩ := WaitJob.settle_of_some rfl (Option.some.inj hstep)
        have hp := h.faithful.passes_onlyFeeds honly
        rw [hy] at hl ⊢
        exact ⟨h.ends hl hstay hp.faithful rfl rfl hc, hp⟩
      | false =>
        cases hs : x.job.source with
        | none =>
          simp only [note, hc, hs] at hy
          simp only [WaitJob.step?, ho, hc, hs] at hstep
          exact h.reading hs ho hstep hstay hy hl
        | some s => exact h.listening hs hc hstep hy hl

theorem Keeps.forward (h : Keeps c group threshold x₀ x) :
    Keeps c group threshold x₀ x.forward ∧ x.annals.Passes x.forward.annals := by
  have same : x.forward = x → Keeps c group threshold x₀ x.forward ∧ x.annals.Passes x.forward.annals := by
    intro hx
    rw [hx]
    exact ⟨h, h.faithful.passes⟩
  cases hs : x.job.source with
  | none =>
    apply same
    unfold Waiter.forward
    rw [hs]
  | some s =>
    cases hstep : s.step? (World.env true) x.world with
    | none =>
      apply same
      unfold Waiter.forward
      rw [hs]
      simp only [hstep]
    | some out =>
      refine h.forwards hs hstep ?_ ((Leads.refl x).act .forward trivial)
      show x.forward = _
      unfold Waiter.forward
      rw [hs]
      simp only [hstep]

theorem Keeps.act (h : Keeps c group threshold x₀ x) {k : Act} (hk : x.Allows k) :
    Keeps c group threshold x₀ (x.act k) ∧ x.annals.Passes (x.act k).annals := by
  cases k with
  | other m => exact h.other hk
  | wait time => exact ⟨h.wait time, h.faithful.passes⟩
  | work => exact h.work
  | forward => exact h.forward
  | cancel => exact ⟨h.cancel, h.faithful.passes⟩
  | signal => exact ⟨h.signal hk, h.faithful.passes⟩

theorem Leads.keeps (h : Leads x y) (hx : Keeps c group threshold x₀ x) :
    Keeps c group threshold x₀ y ∧ x.annals.Precedes y.annals := by
  induction h with
  | refl => exact ⟨hx, .refl _⟩
  | act _ k hk ih =>
    obtain ⟨hkeeps, hp⟩ := ih.1.act hk
    exact ⟨hkeeps, ih.2.trans hp.precedes⟩

end Waiter

end Keyspace
