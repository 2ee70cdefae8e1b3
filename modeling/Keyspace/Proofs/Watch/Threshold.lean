import Keyspace.Proofs.Watch.Waiter

/-!
# Waiting for a group to grow

A wait ends well only if at some revision there were enough members, and goes on past no revision at which
there were, even if some of them left at once (`threshold_tracks`). It gets there by working alone
(`Keeps.arrives`).
-/

namespace Keyspace

open Sim (WaitJob WatchJob World)

namespace Waiter

open Follower (news replay)

variable {c : Client} {group : String} {threshold : Nat} {x₀ x y : Waiter}

/-! ## The way to a waiter -/

theorem cancelled_work (x : Waiter) : x.work.job.wait.cancelled = x.job.wait.cancelled := by
  unfold work
  cases hs : x.job.step? (World.env true) x.world with
  | none => rfl
  | some out => exact (WaitJob.stays_step hs).cancelled

theorem cancelled_forward (x : Waiter) : x.forward.job.wait.cancelled = x.job.wait.cancelled := by
  unfold forward
  split
  · rfl
  · split <;> rfl

theorem Leads.cancelled (h : Leads x₀ x) (h₀ : x₀.job.wait.cancelled = false) (hc : x.job.wait.cancelled = true) :
    ∃ y, Leads x₀ y ∧ Leads (y.act .cancel) x := by
  induction h with
  | refl => cases h₀.symm.trans hc
  | @act y h k hk ih =>
    have before : y.job.wait.cancelled = true → ∃ z, Leads x₀ z ∧ Leads (z.act .cancel) (y.act k) := by
      intro hy
      obtain ⟨z, hz, hzy⟩ := ih hy
      exact ⟨z, hz, hzy.act k hk⟩
    cases k with
    | cancel => exact ⟨y, h, .refl _⟩
    | work => exact before (y.cancelled_work ▸ hc)
    | forward => exact before (y.cancelled_forward ▸ hc)
    | other m => exact before hc
    | wait time => exact before hc
    | signal => exact before hc

theorem Leads.readable (h : Leads x₀ x) (h₀ : Keeps c group threshold x₀ x₀) {r : Int} (hf : x₀.store.floor ≤ r)
    (hr : r ≤ x.store.revision) :
    ∃ y, Leads x₀ y ∧ Leads y x ∧ y.store.floor ≤ r ∧ r ≤ y.store.revision := by
  induction h with
  | refl => exact ⟨x₀, .refl _, .refl _, hf, hr⟩
  | @act y h k hk ih =>
    by_cases hry : r ≤ y.store.revision
    · obtain ⟨z, hz, hzy, hfz, hrz⟩ := ih hry
      exact ⟨z, hz, hzy.act k hk, hfz, hrz⟩
    -- An act that commits does not compact, so what it commits can be read after it.
    · refine ⟨y.act k, h.act k hk, .refl _, ?_, hr⟩
      obtain ⟨hkeeps, _⟩ := h.keeps h₀
      have hle : y.store.floor ≤ y.store.revision := hkeeps.faithful.sound.floor_le
      rcases (hkeeps.act hk).2.paced with hsame | hsame
      · exact absurd (hsame ▸ hr) hry
      · have hsame : (y.act k).store.floor = y.store.floor := hsame
        omega

/-! ## What a wait comes to -/

/-- What is to be told of the news up to a revision. -/
def tidings (group : String) (R : Int) (x : Waiter) (r : Int) : List (Outcome Changes) :=
  ((news group R x.annals.batches).filter (·.revision ≤ r)).map fun b => .ok (Changes.ofBatch (some group) b)

/-- It read the members at `R`, and was told of all the news since. -/
def UpToDate (group : String) (R : Int) (x : Waiter) : Prop :=
  x.account.read = some R ∧ x.account.heard = x.tidings group R x.store.revision

def works : Nat → Waiter → Waiter
  | 0, x => x
  | n + 1, x => works n x.work

/-- Of a wait that began as `x₀` and is `x` by now. -/
structure Tracks (group : String) (threshold : Nat) (x₀ x : Waiter) : Prop where
  readable : ∀ r, 1 ≤ r → r ≤ x.store.revision →
    ∃ y, Leads x₀ y ∧ Leads y x ∧ y.store.floor ≤ r ∧ r ≤ y.store.revision
  /-- At some revision since the members were read there were enough. -/
  reached : x.job.wait.outcome = some (.ok .reached) → ∃ R r y, x.account.read = some R ∧ R ≤ r ∧
    Leads x₀ y ∧ Leads y x ∧ y.store.floor ≤ r ∧ r ≤ y.store.revision ∧
      threshold ≤ countUnder group (y.store.asOf r)
  /-- As long as it goes on there never were, at any revision up to which it was told. -/
  missed : x.job.wait.outcome = none → ∀ R r, x.account.read = some R → x.tidings group R r <+: x.account.heard →
    ∀ y, Leads x₀ y → Leads y x → ∀ r', R ≤ r' → r' ≤ r → y.store.floor ≤ r' → r' ≤ y.store.revision →
      countUnder group (y.store.asOf r') < threshold
  /-- Once its watch is open it hears of all the news by working alone, unless it ends before. -/
  arrives : ∀ R, x.account.read = some R → x.account.floor.isSome →
    ∃ n, (works n x).job.wait.outcome ≠ none ∨ (works n x).UpToDate group R
  /-- So it ends if there ever were enough, even if some of them left at once. -/
  caught : ∀ R, x.account.read = some R → x.account.floor.isSome → ∀ y, Leads x₀ y → Leads y x → ∀ r, R ≤ r →
    y.store.floor ≤ r → r ≤ y.store.revision → threshold ≤ countUnder group (y.store.asOf r) →
      ∃ n, (works n x).job.wait.outcome ≠ none
  cancelled : x.job.wait.outcome = some (.ok .cancelled) → ∃ y, Leads x₀ y ∧ Leads (y.act .cancel) x
  /-- Either the members could not be read, or its watch told a failure. -/
  failed : ∀ e, x.job.wait.outcome = some (.error e) →
    (x.account.read = none ∧ ∃ y, Leads x₀ y ∧ Leads y x ∧
      World.Fails y.annals.backend y.now (membersCall group) e) ∨
    ∃ R told, x.account.read = some R ∧ x.account.heard = told ++ [.error e] ∧
      ((∃ k : FaultKind, e = k.failure) ∨
        ∃ m, x.account.floor = some m ∧ R + 1 < m ∧ e = .revisionCompacted (R + 1) m)

theorem Keeps.watching (h : Keeps c group threshold x₀ x) (ho : x.job.wait.outcome = none) {R : Int}
    (hR : x.account.read = some R) : ∃ s sn, x.job.source = some s ∧ x.Watches group threshold s sn := by
  cases hs : x.job.source with
  | none =>
    obtain ⟨ha, _⟩ := h.reads hs ho
    cases (congrArg Account.read ha).symm.trans hR
  | some s =>
    obtain ⟨_, sn, hw⟩ := h.watches s hs
    exact ⟨s, sn, rfl, hw⟩

theorem Keeps.missed (hx : Keeps c group threshold x₀ x) (hy : Keeps c group threshold x₀ y)
    (hyx : y.annals.Precedes x.annals) (ho : x.job.wait.outcome = none) {R r r' : Int} (hR : x.account.read = some R)
    (htold : x.tidings group R r <+: x.account.heard) (hRr' : R ≤ r') (hr' : r' ≤ r) (hf : y.store.floor ≤ r')
    (hr : r' ≤ y.store.revision) : countUnder group (y.store.asOf r') < threshold := by
  obtain ⟨s, sn, _, hw⟩ := hx.watching ho hR
  cases hw.read.symm.trans hR
  have hfetched := hw.follows.fetched
  -- The news up to `r'` are the first of those up to `r`, so there was a time when it had heard just these.
  have hupto : x.tidings group sn.revision r' <+: x.account.heard := by
    refine List.IsPrefix.trans ?_ htold
    have hle := (Follower.rising_news hx.faithful.rising group sn.revision).filter_le hr'
    unfold tidings
    rw [hle, List.map_append]
    exact List.prefix_append _ _
  have hview := hy.faithful.asOf (Int.le_trans hfetched.pos hRr') hf hr
  have hcount : (valuesUnder group (y.store.asOf r')).size = countUnder group (y.store.asOf r') :=
    size_valuesUnder (hview ▸ keyed_viewAt hy.faithful.text r')
  have hbelow := hw.below _ hupto.length_le
  have hreplay : replay (sn.listing.valueMap group) (x.tidings group sn.revision r') = _ :=
    Follower.replay_upto hy.faithful hx.faithful hyx hfetched hRr' hf hr
  rw [← List.prefix_iff_eq_take.1 hupto, hreplay] at hbelow
  exact hcount ▸ hbelow

/-! ## What it comes to by itself -/

theorem Leads.works (h : Leads x₀ x) (n : Nat) : Leads x₀ (works n x) := by
  induction n generalizing x with
  | zero => exact h
  | succ n ih => exact ih (h.act .work trivial)

theorem Watches.upToDate {s : WatchJob} {sn : Snapshot} {m : Int} (h : x.Watches group threshold s sn)
    (ha : x.annals.Faithful)
    (hall : x.account.heard = (Follower.due group sn.revision m x.annals.batches).map (WatchJob.tell group)) :
    x.UpToDate group sn.revision := by
  refine ⟨h.read, ?_⟩
  unfold Follower.due at hall
  split at hall
  · have hnews : (news group sn.revision x.annals.batches).filter (·.revision ≤ x.store.revision) =
        news group sn.revision x.annals.batches :=
      List.filter_eq_self.2 fun b hb => decide_eq_true (Follower.mem_news ha hb).2
    rw [hall, Follower.told_news, tidings, hnews]
  · rw [Follower.told_error] at hall
    obtain ⟨ch, hch⟩ := h.ok (.error _) (hall ▸ List.mem_cons_self)
    cases hch

theorem Keeps.nears (h : Keeps c group threshold x₀ x) {s : WatchJob} (hs : x.job.source = some s)
    (hc : x.job.wait.cancelled = false) (hfloor : x.account.floor.isSome) {R : Int} (hR : x.account.read = some R) :
    x.UpToDate group R ∨ x.work.job.wait.outcome ≠ none ∨
      (∃ s', x.work.job.source = some s' ∧ s'.load x.work.store < s.load x.store) ∧
        x.work.account.floor.isSome ∧ x.work.account.read = some R := by
  obtain ⟨ho, sn, hw⟩ := h.watches s hs
  cases hw.read.symm.trans hR
  obtain ⟨⟨next, s'⟩, htake⟩ : ∃ out, s.take = out := ⟨_, rfl⟩
  -- It hears what its watch has for it, and only where there is nothing does its watch go on.
  cases next with
  | ended => exact (hw.follows.not_ended hw.ok (hw.attended hc) hw.tidy htake).elim
  | item y =>
    obtain ⟨⟨j, w⟩, hset⟩ : ∃ out,
      WaitJob.settle { x.job with wait := x.job.wait.heard (.item y), source := some s' } x.world = out := ⟨_, rfl⟩
    have hstep : x.job.step? (World.env true) x.world = some (j, w) := by
      simp [WaitJob.step?, ho, hc, hs, htake, hset]
    refine .inr ?_
    rw [work_of_some hstep]
    cases ho' : (x.job.wait.heard (.item y)).outcome with
    | some o =>
      obtain ⟨rfl, _⟩ := WaitJob.settle_of_some ho' hset
      exact .inl (by simp [ho'])
    | none =>
      rw [WaitJob.settle_of_none ho'] at hset
      cases hset
      simp only [note, hc, hs, htake]
      exact .inr ⟨⟨s', rfl, WatchJob.load_take htake _⟩, hfloor, hR⟩
  | empty =>
    have hfollows := hw.follows
    obtain ⟨m, hm⟩ := Option.isSome_iff_exists.1 hfloor
    rw [hm] at hfollows
    obtain ⟨_, hflows⟩ := hfollows
    rcases hflows.progress (w := x.world) (hw.attended hc) with hall | ⟨y, _, hy, _⟩ | ⟨i, w, hi, hload, _⟩
    · exact .inl (hw.upToDate h.faithful hall)
    · cases htake.symm.trans hy
    · have hstep : x.job.step? (World.env true) x.world = some ({ x.job with source := some i }, w) := by
        simp [WaitJob.step?, ho, hc, hs, htake, hi]
      refine .inr (.inr ?_)
      rw [work_of_some hstep]
      simp only [note, hc, hs, htake]
      exact ⟨⟨i, rfl, hload⟩, by simp [Account.fed, hm], hR⟩

theorem Keeps.comes {R : Int} : ∀ (n : Nat) {x : Waiter} {s : WatchJob}, Keeps c group threshold x₀ x →
    x.job.source = some s → x.job.wait.cancelled = false → x.account.floor.isSome → x.account.read = some R →
      s.load x.store < n → ∃ k, (works k x).job.wait.outcome ≠ none ∨ (works k x).UpToDate group R := by
  intro n
  induction n with
  | zero => exact fun _ _ _ _ _ hn => nomatch hn
  | succ n ih =>
    intro x s h hs hc hfloor hR hn
    rcases h.nears hs hc hfloor hR with hnow | hend | ⟨⟨s', hs', hload⟩, hfloor', hR'⟩
    · exact ⟨0, .inr hnow⟩
    · exact ⟨1, .inl hend⟩
    · obtain ⟨k, hk⟩ := ih h.work.1 hs' (x.cancelled_work.trans hc) hfloor' hR' (by omega)
      exact ⟨k + 1, hk⟩

theorem Keeps.arrives (h : Keeps c group threshold x₀ x) {R : Int} (hR : x.account.read = some R)
    (hfloor : x.account.floor.isSome) : ∃ n, (works n x).job.wait.outcome ≠ none ∨ (works n x).UpToDate group R := by
  cases ho : x.job.wait.outcome with
  | some o => exact ⟨0, .inl (by simp [works, ho])⟩
  | none =>
    cases hc : x.job.wait.cancelled with
    | true =>
      obtain ⟨⟨j, w⟩, hset⟩ : ∃ out,
        WaitJob.settle { x.job with wait := x.job.wait.finish (.ok .cancelled) } x.world = out := ⟨_, rfl⟩
      have hstep : x.job.step? (World.env true) x.world = some (j, w) := by
        simp [WaitJob.step?, ho, hc, hset]
      obtain ⟨rfl, _⟩ := WaitJob.settle_of_some rfl hset
      refine ⟨1, .inl ?_⟩
      show x.work.job.wait.outcome ≠ none
      rw [work_of_some hstep]
      exact Option.some_ne_none _
    | false =>
      obtain ⟨s, _, hs, _⟩ := h.watching ho hR
      exact Keeps.comes (s.load x.store + 1) h hs hc hfloor hR (Nat.lt_succ_self _)

theorem Keeps.caught (hx : Keeps c group threshold x₀ x) (hy : Keeps c group threshold x₀ y) (hyx : Leads y x)
    {R r : Int} (hR : x.account.read = some R) (hfloor : x.account.floor.isSome) (hRr : R ≤ r)
    (hf : y.store.floor ≤ r) (hr : r ≤ y.store.revision) (hn : threshold ≤ countUnder group (y.store.asOf r)) :
    ∃ n, (works n x).job.wait.outcome ≠ none := by
  obtain ⟨n, hend | ⟨hread, hheard⟩⟩ := hx.arrives hR hfloor
  · exact ⟨n, hend⟩
  -- If it did not end it was told of `r` as well, and so there never were enough.
  · refine ⟨n, fun ho => ?_⟩
    obtain ⟨hkeeps, _⟩ := ((Leads.refl x).works n).keeps hx
    obtain ⟨_, hprec⟩ := (hyx.works n).keeps hy
    have hbelow := hkeeps.missed hy hprec ho hread (hheard ▸ List.prefix_refl _) hRr
      (Int.le_trans hr hprec.revision_le) hf hr
    omega

theorem threshold_tracks {names : List String} (h : Leads (start c group threshold names) x) :
    Tracks group threshold (start c group threshold names) x := by
  have h₀ := keeps_start c group threshold names
  obtain ⟨hkeeps, _⟩ := h.keeps h₀
  have hread : ∀ r, 1 ≤ r → r ≤ x.store.revision →
      ∃ y, Leads (start c group threshold names) y ∧ Leads y x ∧ y.store.floor ≤ r ∧ r ≤ y.store.revision :=
    fun r h1 hr => h.readable h₀ (Int.le_trans (by decide : (0 : Int) ≤ 1) h1) hr
  refine ⟨hread, fun ho => ?_, fun ho R r hR htold y hy hyx r' hRr' hr' hf hr => ?_, fun R => hkeeps.arrives,
    fun R hR hfloor y hy hyx r hRr hf hr hn => ?_, fun ho => h.cancelled rfl (hkeeps.ended _ ho),
    fun e ho => hkeeps.ended _ ho⟩
  · obtain ⟨R, r, hR, h1, hRr, hr, hn⟩ := hkeeps.ended _ ho
    obtain ⟨y, hy, hyx, hf, hry⟩ := hread r (Int.le_trans h1 hRr) hr
    obtain ⟨hky, _⟩ := hy.keeps h₀
    have hview : y.store.asOf r = x.annals.view r := by
      rw [(hyx.keeps hky).2.view r hry]
      exact hky.faithful.asOf (Int.le_trans h1 hRr) hf hry
    exact ⟨R, r, y, hR, hRr, hy, hyx, hf, hry, hview ▸ hn⟩
  · obtain ⟨hky, _⟩ := hy.keeps h₀
    exact hkeeps.missed hky (hyx.keeps hky).2 ho hR htold hRr' hr' hf hr
  · obtain ⟨hky, _⟩ := hy.keeps h₀
    exact hkeeps.caught hky hyx hR hfloor hRr hf hr hn

theorem Leads.acts (acts : List Act) : ∀ {y : Waiter}, Leads x y → (∀ k ∈ acts, ∀ z : Waiter, z.Allows k) →
    Leads x (acts.foldl Waiter.act y) := by
  induction acts with
  | nil => exact fun h _ => h
  | cons k acts ih =>
    exact fun h hk => ih (h.act k (hk k List.mem_cons_self _)) fun k' hk' => hk k' (List.mem_cons_of_mem _ hk')

theorem allows_call (x : Waiter) {i : Call} (h : ∀ k, i.Puts k → IsText k) : x.Allows (.other (.call i)) :=
  ⟨h, fun _ _ _ _ hu => nomatch hu⟩

/-- A second member comes after the first was read, and is gone before the wait watches. -/
def crossed : List Act :=
  [.other (.call (.put (Utf8.encode "g/a") [1] none)),
    .work,
    .other (.call (.put (Utf8.encode "g/b") [2] none)),
    .other (.call (.deleteRange (.single (Utf8.encode "g/b")))),
    .work, .work, .forward, .work]

theorem threshold_tracks_crossed :
    let x₀ := start (.ofConfig Config.standard) "g/" 2 ["a"]
    let y := (crossed.take 5).foldl act x₀
    let x := crossed.foldl act x₀
    (y.account.floor.isSome ∧ y.job.wait.outcome.isNone ∧ countUnder "g/" y.store.latest = 1) ∧
      Tracks "g/" 2 x₀ y ∧ x.job.wait.outcome.map (·.toOption) = some (some .reached) ∧ Tracks "g/" 2 x₀ x := by
  intro x₀ y x
  have hacts : ∀ k ∈ crossed, ∀ z : Waiter, z.Allows k := by
    intro k hk z
    simp only [crossed, List.mem_cons, List.not_mem_nil, or_false] at hk
    rcases hk with rfl | rfl | rfl | rfl | rfl | rfl | rfl | rfl
    · exact z.allows_call fun _ h => ⟨_, h⟩
    · trivial
    · exact z.allows_call fun _ h => ⟨_, h⟩
    · exact z.allows_call fun _ h => nomatch h
    all_goals trivial
  have hy : Leads x₀ y := (Leads.refl x₀).acts _ fun k hk => hacts k (List.mem_of_mem_take hk)
  have hx : Leads x₀ x := (Leads.refl x₀).acts _ hacts
  exact ⟨by decide +kernel, threshold_tracks hy, by decide +kernel, threshold_tracks hx⟩

end Waiter

end Keyspace
