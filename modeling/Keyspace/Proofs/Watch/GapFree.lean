import Keyspace.Proofs.Watch.Fetch
import Keyspace.Proofs.Watch.Flow

/-!
# A snapshot and a watch leave no gap

A follower takes a snapshot of what is under a head, and then watches from the next revision on, while
others do what they like to the backend. What it has received by any time makes of the snapshot's value map
the one that the store has, or had, at the revision up to which it was told (`gap_free`).
-/

namespace Keyspace

open Sim (WatchJob World)

inductive Follower.Stage
  | fetching (p : Sim.WorldProg (Outcome Snapshot))
  /-- `floor` is what was compacted when the feed was opened. -/
  | watching (s : Snapshot) (job : WatchJob) (received : List (Outcome Changes)) (floor : Option Int)

structure Follower where
  now : Nat
  annals : Annals
  stage : Follower.Stage

namespace Follower

def Stage.feed? : Stage → Option FeedId
  | fetching _ => none
  | watching _ j _ _ => j.feed

def Stage.received : Stage → List (Outcome Changes)
  | fetching _ => []
  | watching _ _ received _ => received

def store (x : Follower) : Store := x.annals.store

/-- Beside members of these names, about to take a snapshot. -/
def start (c : Client) (head : String) (names : List String) : Follower :=
  ⟨0, ⟨.ofMembers names, []⟩, .fetching (c.listUnder head).run⟩

inductive Act
  | other (m : Move)
  | wait (time : Nat)
  | fetch (t : Turn)
  /-- Starts to watch, once there is a snapshot. -/
  | watch
  | work
  | take
  | cancel
  | abandon

/-- Others put only text, and do not touch the follower's feed. -/
def Allows (x : Follower) : Act → Prop
  | .other m => (∀ k, m.Puts k → IsText k) ∧ ∀ id, x.stage.feed? = some id → ¬ m.Uses id
  | _ => True

def work (x : Follower) (s : Snapshot) (j : WatchJob) (received : List (Outcome Changes)) (floor : Option Int) :
    Follower :=
  match j.step? (World.env true) ⟨x.now, x.annals.backend, []⟩ with
  | none => x
  | some (j, w) =>
    ⟨w.now, x.annals.goOn w.backend, .watching s j received (floor.or (j.feed.map fun _ => w.backend.store.floor))⟩

def act (c : Client) (head : String) (x : Follower) : Act → Follower
  | .other m => { x with annals := x.annals.move x.now m }
  | .wait time => { x with now := time }
  | .fetch t =>
    match x.stage with
    | .fetching p => { x with
        annals := (p.step (Annals.serve t) t x.annals).2, stage := .fetching (p.step (Annals.serve t) t x.annals).1 }
    | _ => x
  | .watch =>
    match x.stage with
    | .fetching (.done (.ok s)) =>
      { x with stage := .watching s (.start c ⟨head, s.revision + 1, true, true⟩) [] none }
    | _ => x
  | .work =>
    match x.stage with
    | .watching s j received floor => x.work s j received floor
    | _ => x
  | .take =>
    match x.stage with
    | .watching s j received floor =>
      match j.take with
      | (.item y, j) => { x with stage := .watching s j (received ++ [y]) floor }
      | _ => x
    | _ => x
  | .cancel =>
    match x.stage with
    | .watching s j received floor => { x with stage := .watching s j.cancel received floor }
    | _ => x
  | .abandon =>
    match x.stage with
    | .watching s j received floor => { x with stage := .watching s j.abandon received floor }
    | _ => x

inductive Leads (c : Client) (head : String) : Follower → Follower → Prop
  | refl (x : Follower) : Leads c head x x
  | act {x y : Follower} (h : Leads c head x y) (a : Act) (ha : y.Allows a) : Leads c head x (y.act c head a)

/-! ## What follows what -/

/-- What a watch since the revision after `R` is to hear. -/
def news (head : String) (R : Int) (batches : List Batch) : List Batch :=
  (batches.filter (R < ·.revision)).filterMap (·.within? (.under (Utf8.encode head)))

/-- What it is to tell, if all up to `floor` was compacted when it began. -/
def due (head : String) (R floor : Int) (batches : List Batch) : List (Outcome Batch) :=
  if floor ≤ R + 1 then (news head R batches).map .ok else [.error (.revisionCompacted (R + 1) floor)]

def Follows (head : String) (a : Annals) : Stage → Prop
  | .fetching p => p.Ensures Annals.fetching (Action.Ends (Fetched head) fun _ => True) a
  | .watching s j received none => Fetched head s a ∧ j.feed = none ∧
      (received = [] ∧ WatchJob.Opens head (s.revision + 1) j ∨
        ∃ k : FaultKind, WatchJob.Flows head false [.error k.failure] received j a.store)
  | .watching s j received (some floor) => Fetched head s a ∧ WatchJob.Flows head (decide (floor ≤ s.revision + 1))
      (due head s.revision floor a.batches) received j a.store

theorem news_append (head : String) {R : Int} (batches : List Batch) {bs : List Batch}
    (h : ∀ b ∈ bs, R < b.revision) :
    news head R (batches ++ bs) = news head R batches ++ bs.filterMap (·.within? (.under (Utf8.encode head))) := by
  have hb : bs.filter (R < ·.revision) = bs := List.filter_eq_self.2 fun b hb => by simpa using h b hb
  rw [news, List.filter_append, hb, List.filterMap_append]
  rfl

theorem due_append (head : String) {R floor : Int} (batches : List Batch) {bs : List Batch}
    (h : ∀ b ∈ bs, R < b.revision) :
    due head R floor (batches ++ bs) = due head R floor batches ++
      if decide (floor ≤ R + 1) then (bs.filterMap (·.within? (.under (Utf8.encode head)))).map .ok else [] := by
  unfold due
  by_cases hf : floor ≤ R + 1
  · simp only [hf, decide_true, if_true, news_append head batches h, List.map_append]
  · simp only [hf, decide_false, if_false, Bool.false_eq_true, List.append_nil]

/-! ## Acts -/

section
variable {c : Client} {head : String} {a b : Annals} {s : Snapshot} {j j' : WatchJob}
  {received received' : List (Outcome Changes)} {floor : Option Int}

theorem since_later (a : Annals) {R : Int} (hR : R ≤ a.store.revision) (t : Store) :
    ∀ b ∈ a.store.since t, R < b.revision := by
  intro b hb
  have := (List.mem_filter.1 hb).2
  simp only [decide_eq_true_eq] at this
  omega

theorem Follows.move {stage : Stage} (h : Follows head a stage) (ha : a.Faithful) (now : Nat) {m : Move}
    (hm : ∀ id, stage.feed? = some id → ¬ m.Uses id) : Follows head (a.move now m) stage := by
  have hab := Annals.precedes_move ha now m
  cases stage with
  | fetching p => exact h.others hab
  | watching s j received floor =>
    have hfeed : ∀ id f, j.feed = some id → a.store.feed? id = some f →
        (a.move now m).store.feed? id = some (f.offerAll (a.store.since (a.move now m).store)) :=
      fun id f hid hf => Backend.feed?_move ha.sound now (hm id hid) hf
    cases floor with
    | none =>
      obtain ⟨hfetched, hnone, hopens | ⟨k, hflows⟩⟩ := h
      · exact ⟨hfetched.precedes hab, hnone, .inl hopens⟩
      · have := hflows.hear hfeed
        simp only [Bool.false_eq_true, if_false, List.append_nil] at this
        exact ⟨hfetched.precedes hab, hnone, .inr ⟨k, this⟩⟩
    | some floor =>
      obtain ⟨hfetched, hflows⟩ := h
      refine ⟨hfetched.precedes hab, ?_⟩
      show WatchJob.Flows _ _ (due head s.revision floor (a.batches ++ a.store.since (a.move now m).store)) _ _ _
      rw [due_append head a.batches (since_later a hfetched.le _)]
      exact hflows.hear hfeed

theorem dueAt_eq_due (ha : a.Faithful) (head : String) (R : Int) :
    a.store.dueAt (.under (Utf8.encode head)) (R + 1) = due head R a.store.floor a.batches := by
  unfold Store.dueAt due news
  by_cases hf : a.store.floor ≤ R + 1
  · have hlog : a.store.log.filter (R + 1 ≤ ·.revision) = a.batches.filter (R < ·.revision) := by
      rw [ha.log_eq, List.filter_filter]
      apply List.filter_congr
      intro b _
      by_cases hb : R < b.revision
      · have h₁ : R + 1 ≤ b.revision := by omega
        have h₂ : a.store.floor ≤ b.revision := by omega
        simp [hb, h₁, h₂]
      · have h₁ : ¬ R + 1 ≤ b.revision := by omega
        simp [hb, h₁]
    rw [if_pos hf, if_pos hf, hlog]
  · rw [if_neg hf, if_neg hf]

theorem due_ok {R floor : Int} {batches : List Batch} (h : decide (floor ≤ R + 1) = true) :
    ∀ x ∈ due head R floor batches, ∃ b, x = .ok b := by
  intro x hx
  rw [due, if_pos (of_decide_eq_true h)] at hx
  obtain ⟨b, _, rfl⟩ := List.mem_map.1 hx
  exact ⟨b, rfl⟩

theorem due_error {R floor : Int} {batches : List Batch} (h : decide (floor ≤ R + 1) = false) :
    ∃ e, due head R floor batches = [.error e] := by
  rw [due, if_neg (of_decide_eq_false h)]
  exact ⟨_, rfl⟩

theorem Follows.open (hfetched : Fetched head s a) (ha : a.Faithful)
    (hopens : WatchJob.Opens head (s.revision + 1) j) {now : Nat} {b₀ b : Backend} (hb₀ : b₀.store = a.store)
    {id : FeedId} (hans : b₀.answer now (.watch (.under (Utf8.encode head)) (some (s.revision + 1))) = (.ok id, b)) :
    Follows head (a.goOn b)
      (.watching s { j with feed := some id, forwarder := j.forwarder.opened (.ok ()) } [] (some b.store.floor)) ∧
      a.Passes (a.goOn b) := by
  have hp := ha.passes_answer hb₀ (c := .watch (.under (Utf8.encode head)) (some (s.revision + 1)))
    (fun _ hk => nomatch hk) hans
  have hpos : 0 < s.revision + 1 := by
    have := hfetched.pos
    omega
  have hfeed := hp.faithful.feed?_answer_watch hpos hans
  have hdue : b.store.dueAt (.under (Utf8.encode head)) (s.revision + 1) =
      due head s.revision b.store.floor (a.goOn b).batches := dueAt_eq_due (a := a.goOn b) hp.faithful head s.revision
  refine ⟨⟨hfetched.precedes hp.precedes, ?_⟩, hp⟩
  rw [← hdue]
  exact hopens.flows hfeed (fun hl => hdue ▸ due_ok hl) fun hl => hdue ▸ due_error hl

theorem Follows.work (h : Follows head a (.watching s j received floor)) (ha : a.Faithful) {now : Nat} {w : World}
    (hs : j.step? (World.env true) ⟨now, a.backend, []⟩ = some (j', w)) :
    Follows head (a.goOn w.backend)
      (.watching s j' received (floor.or (j'.feed.map fun _ => w.backend.store.floor))) ∧
      a.Passes (a.goOn w.backend) := by
  cases floor with
  | some floor =>
    obtain ⟨hfetched, hflows⟩ := h
    obtain ⟨hstep, hfeeds, _⟩ := hflows.step hs
    have hp := ha.passes_onlyFeeds hfeeds
    refine ⟨⟨hfetched.precedes hp.precedes, ?_⟩, hp⟩
    rw [ha.batches_onlyFeeds hfeeds]
    exact hstep
  | none =>
    obtain ⟨hfetched, hnone, ⟨rfl, hopens⟩ | ⟨k, hflows⟩⟩ := h
    · rcases hopens.step hs with ⟨hstore, hend⟩ | ⟨b, id, hb, hans, rfl⟩
      · have hp := ha.passes_onlyFeeds (b := w.backend) (hstore ▸ .refl _)
        have hfeed : j'.feed = none := by
          rcases hend with hend | hend
          · exact hend.feed
          · exact hend.1
        rw [hfeed]
        exact ⟨⟨hfetched.precedes hp.precedes, hfeed, hend.imp (fun h => ⟨rfl, h⟩) (·.2)⟩, hp⟩
      · exact Follows.open hfetched ha hopens hb hans
    · obtain ⟨hstep, hfeeds, hfeed⟩ := hflows.step hs
      have hp := ha.passes_onlyFeeds hfeeds
      rw [hfeed hnone]
      exact ⟨⟨hfetched.precedes hp.precedes, hfeed hnone, .inr ⟨k, hstep⟩⟩, hp⟩

theorem Follows.set (h : Follows head a (.watching s j received floor)) (hfeed : j'.feed = j.feed)
    (hopens : ∀ start, WatchJob.Opens head start j → received' = received ∧ WatchJob.Opens head start j')
    (hflows : ∀ live due, WatchJob.Flows head live due received j a.store →
      WatchJob.Flows head live due received' j' a.store) :
    Follows head a (.watching s j' received' floor) := by
  cases floor with
  | none =>
    obtain ⟨hfetched, hnone, ⟨rfl, ho⟩ | ⟨k, hf⟩⟩ := h
    · exact ⟨hfetched, hfeed.trans hnone, .inl (hopens _ ho)⟩
    · exact ⟨hfetched, hfeed.trans hnone, .inr ⟨k, hflows _ _ hf⟩⟩
  | some floor => exact ⟨h.1, hflows _ _ h.2⟩

structure Keeps (head : String) (x : Follower) : Prop where
  faithful : x.annals.Faithful
  follows : Follows head x.annals x.stage

theorem keeps_start (c : Client) (head : String) (names : List String) : Keeps head (start c head names) :=
  ⟨.ofMembers names, c.ensures_listUnder head _⟩

theorem Keeps.act {x : Follower} (h : Keeps head x) {k : Act} (hk : x.Allows k) :
    Keeps head (x.act c head k) ∧ x.annals.Precedes (x.act c head k).annals := by
  have same : Keeps head x ∧ x.annals.Precedes x.annals := ⟨h, .refl _⟩
  obtain ⟨now, a, stage⟩ := x
  obtain ⟨ha, hf⟩ := h
  cases k with
  | other m => exact ⟨⟨ha.move now hk.1, hf.move ha now hk.2⟩, Annals.precedes_move ha now m⟩
  | wait time => exact ⟨⟨ha, hf⟩, .refl _⟩
  | fetch t =>
    cases stage with
    | watching s j received floor => exact same
    | fetching p =>
      have hstep : Follows head _ (.fetching _) := hf.step t fun _ hm => ha.serves t hm
      have hkeep := Prog.Ensures.step_keeps (I := fun b : Annals => b.Faithful ∧ a.Precedes b) hf t ⟨ha, .refl a⟩
        fun _ hm => ha.serve t fun k hk => absurd hk (hm k)
      exact ⟨⟨hkeep.1, hstep⟩, hkeep.2⟩
  | watch =>
    cases stage with
    | watching s j received floor => exact same
    | fetching p =>
      cases p with
      | done r =>
        cases r with
        | error e => exact same
        | ok s =>
          have hs : Fetched head s a := hf a (.refl a)
          have hpos := hs.pos
          refine ⟨⟨ha, hs, rfl, .inl ⟨rfl, WatchJob.opens_start c head ?_⟩⟩, .refl a⟩
          omega
      | _ => exact same
  | work =>
    cases stage with
    | fetching p => exact same
    | watching s j received floor =>
      have hw : Keeps head (Follower.work ⟨now, a, .watching s j received floor⟩ s j received floor) ∧
          a.Precedes (Follower.work ⟨now, a, .watching s j received floor⟩ s j received floor).annals := by
        unfold Follower.work
        cases hs : j.step? (World.env true) ⟨now, a.backend, []⟩ with
        | none => exact same
        | some out =>
          obtain ⟨hfollows, hp⟩ := hf.work ha hs
          exact ⟨⟨hp.faithful, hfollows⟩, hp.precedes⟩
      exact hw
  | take =>
    cases stage with
    | fetching p => exact same
    | watching s j received floor =>
      obtain ⟨out, hx⟩ : ∃ out, j.take = out := ⟨_, rfl⟩
      simp only [Follower.act, hx]
      obtain ⟨y, j'⟩ := out
      cases y with
      | item y =>
        refine ⟨⟨ha, hf.set ?_ (fun _ ho => (ho.take hx).elim) fun _ _ hflows => hflows.take hx⟩, .refl a⟩
        exact congrArg (·.2.feed) hx.symm
      | empty => exact same
      | ended => exact same
  | cancel =>
    cases stage with
    | fetching p => exact same
    | watching s j received floor =>
      exact ⟨⟨ha, hf.set rfl (fun _ ho => ⟨rfl, ho.cancel⟩) fun _ _ hflows => hflows.cancel⟩, .refl a⟩
  | abandon =>
    cases stage with
    | fetching p => exact same
    | watching s j received floor =>
      exact ⟨⟨ha, hf.set rfl (fun _ ho => ⟨rfl, ho.abandon⟩) fun _ _ hflows => hflows.abandon⟩, .refl a⟩

/-! ## What is told -/

theorem filter_news (head : String) (R r : Int) (batches : List Batch) :
    (news head R batches).filter (·.revision ≤ r) =
      ((batches.filter (R < ·.revision)).filter (·.revision ≤ r)).filterMap
        (·.within? (.under (Utf8.encode head))) :=
  Batch.filter_within? _ (· ≤ r) _

theorem rising_news (h : Rising a.batches) (head : String) (R : Int) : Rising (news head R a.batches) :=
  Rising.within (h.filter _) _

theorem mem_news (ha : a.Faithful) {R : Int} {b : Batch} (hb : b ∈ news head R a.batches) :
    R < b.revision ∧ b.revision ≤ a.store.revision := by
  obtain ⟨d, hd, hdb⟩ := List.mem_filterMap.1 hb
  obtain ⟨hd, hR⟩ := List.mem_filter.1 hd
  rw [Batch.revision_of_within? hdb]
  exact ⟨by simpa using hR, ha.revision_le hd⟩

theorem news_upto (ha : a.Faithful) (head : String) (R : Int) {r : Int} (hr : r ≤ a.store.revision) :
    (news head R a.batches).filter (·.revision ≤ r) <+: news head R a.batches := by
  have hall : (news head R a.batches).filter (·.revision ≤ a.store.revision) = news head R a.batches :=
    List.filter_eq_self.2 fun b hb => by simpa using (mem_news ha hb).2
  have hle := (rising_news ha.rising head R).filter_le hr
  rw [hall] at hle
  exact ⟨_, hle.symm⟩

theorem foldl_news (ha : a.Faithful) {R r : Int} (hr : R ≤ r) :
    ((news head R a.batches).filter (·.revision ≤ r)).foldl (fun m b => (Changes.ofBatch (some head) b).applyTo m)
      (valuesUnder head (a.view R)) = valuesUnder head (a.view r) := by
  have htext : ∀ b ∈ (a.batches.filter (R < ·.revision)).filter (·.revision ≤ r),
      ∀ e ∈ b.events, IsText e.record.key :=
    fun b hb => ha.text b (List.mem_filter.1 (List.mem_filter.1 hb).1).1
  have hR : Mirrors head (a.view R) (valuesUnder head (a.view R)) := .valuesUnder (keyed_viewAt ha.text R)
  have hm := hR.batches _ htext
  rw [filter_news]
  rw [← ha.view_eq hr] at hm
  exact hm.eq_valuesUnder (keyed_viewAt ha.text r)

theorem Leads.keeps {x y : Follower} (h : Leads c head x y) (hx : Keeps head x) :
    Keeps head y ∧ x.annals.Precedes y.annals := by
  induction h with
  | refl => exact ⟨hx, .refl _⟩
  | act _ k hk ih =>
    obtain ⟨hkeeps, hab⟩ := ih.1.act hk
    exact ⟨hkeeps, ih.2.trans hab⟩

theorem Leads.acts (acts : List Act) : ∀ {x y : Follower}, Leads c head x y →
    (∀ k ∈ acts, ∀ z : Follower, z.Allows k) → Leads c head x (acts.foldl (fun y k => y.act c head k) y) := by
  induction acts with
  | nil => exact fun h _ => h
  | cons k acts ih =>
    exact fun h hk => ih (h.act k (hk k List.mem_cons_self _)) fun k' hk' => hk k' (List.mem_cons_of_mem _ hk')

theorem allows_call (x : Follower) {i : Call} (h : ∀ k, i.Puts k → IsText k) : x.Allows (.other (.call i)) :=
  ⟨h, fun _ _ hu => nomatch hu⟩

/-- By working and taking alone, the follower can come to have received `all`. -/
def Receives (c : Client) (head : String) (s : Snapshot) (floor : Int) (x : Follower)
    (all : List (Outcome Changes)) : Prop :=
  ∃ acts : List Act, (∀ k ∈ acts, k = .work ∨ k = .take) ∧
    ∃ j, (acts.foldl (fun y k => y.act c head k) x).stage = .watching s j all (some floor)

theorem Keeps.advance {floor : Int} {x : Follower} (hx : Keeps head x)
    (hs : x.stage = .watching s j received (some floor)) (hj : j.Attended) :
    received = (due head s.revision floor x.annals.batches).map (WatchJob.tell head) ∨
      ∃ k : Act, (k = .work ∨ k = .take) ∧ (x.act c head k).annals.batches = x.annals.batches ∧
        ∃ j' received', (x.act c head k).stage = .watching s j' received' (some floor) ∧ j'.Attended ∧
          j'.load (x.act c head k).store < j.load x.store := by
  obtain ⟨now, a, stage⟩ := x
  cases hs
  obtain ⟨ha, _, hflows⟩ := hx
  rcases hflows.progress (w := ⟨now, a.backend, []⟩) hj with hall | ⟨y, j', htake, hload, hj'⟩ |
    ⟨j', w, hstep, hload, hj'⟩
  · exact .inl hall
  · refine .inr ⟨.take, .inr rfl, ?_⟩
    simp only [Follower.act, htake]
    exact ⟨trivial, j', _, rfl, hj', hload⟩
  · obtain ⟨_, hfeeds, _⟩ := hflows.step hstep
    have hbatches := ha.batches_onlyFeeds hfeeds
    refine .inr ⟨.work, .inl rfl, ?_⟩
    simp only [Follower.act, Follower.work, hstep]
    exact ⟨hbatches, j', _, rfl, hj', hload⟩

theorem Keeps.receives {floor : Int} : ∀ (n : Nat) {x : Follower} {j : WatchJob} {received : List (Outcome Changes)},
    Keeps head x → x.stage = .watching s j received (some floor) → j.Attended → j.load x.store < n →
      Receives c head s floor x ((due head s.revision floor x.annals.batches).map (WatchJob.tell head)) := by
  intro n
  induction n with
  | zero => exact fun _ _ _ hn => nomatch hn
  | succ n ih =>
    intro x j received hx hs hj hn
    rcases hx.advance (c := c) hs hj with hall | ⟨k, hk, hbatches, j', received', hs', hj', hload⟩
    · exact ⟨[], nofun, j, hall ▸ hs⟩
    · have hallows : x.Allows k := by
        rcases hk with rfl | rfl <;> trivial
      obtain ⟨acts, hacts, j'', hend⟩ := ih (hx.act hallows).1 hs' hj' (by omega)
      refine ⟨k :: acts, fun k' hk' => ?_, j'', ?_⟩
      · rcases List.mem_cons.1 hk' with rfl | hk'
        · exact hk
        · exact hacts k' hk'
      · rw [hbatches] at hend
        exact hend

def replay (m : ValueMap) (received : List (Outcome Changes)) : ValueMap :=
  received.foldl (fun m x => match x with
    | .ok changes => changes.applyTo m
    | .error _ => m) m

/-- Of a watch since the snapshot `s`, by the time that the follower is `x`; `y` is a store that it had on
its way there. -/
structure GapFree (c : Client) (head : String) (s : Snapshot) (j : WatchJob) (received : List (Outcome Changes))
    (floor : Int) (x : Follower) (y : Store) : Prop where
  /-- Later and later revisions are told, each no more than once. -/
  rising : (news head s.revision x.annals.batches).Pairwise fun b b' => b.revision < b'.revision
  later : ∀ b ∈ news head s.revision x.annals.batches, s.revision < b.revision ∧ b.revision ≤ x.store.revision
  /-- They are received in order, and none is skipped. -/
  told : received = ((news head s.revision x.annals.batches).take received.length).map
    fun b => .ok (Changes.ofBatch (some head) b)
  /-- Those that were not received yet are on their way. -/
  whole : j.forwarder.isStopped = false → received ++ j.forwarder.out.items ++ j.underWay head x.store =
    (news head s.revision x.annals.batches).map fun b => .ok (Changes.ofBatch (some head) b)
  stopped : j.forwarder.isStopped = true → j.forwarder.cancelled = true ∨ j.forwarder.out.abandoned = true
  receives : j.Attended → Receives c head s floor x
    ((news head s.revision x.annals.batches).map fun b => .ok (Changes.ofBatch (some head) b))
  /-- Once all up to a revision is received, the map is that of the store at the revision. -/
  mirror : ∀ r n, s.revision ≤ r → y.floor ≤ r → r ≤ y.revision →
    n = ((news head s.revision x.annals.batches).filter (·.revision ≤ r)).length → n ≤ received.length →
      replay (s.listing.valueMap head) (received.take n) = valuesUnder head (y.asOf r)

/-- By the floor that the store had when the watch was opened. -/
def Told (c : Client) (head : String) (s : Snapshot) (j : WatchJob) (received : List (Outcome Changes)) (x : Follower)
    (y : Store) : Option Int → Prop
  | none => received = [] ∨ ∃ k : FaultKind, received = [.error k.failure]
  | some floor =>
    if floor ≤ s.revision + 1 then GapFree c head s j received floor x y
    else received <+: [.error (.revisionCompacted (s.revision + 1) floor)] ∧
      (j.forwarder.isStopped = false → received ++ j.forwarder.out.items ++ j.underWay head x.store =
        [.error (.revisionCompacted (s.revision + 1) floor)]) ∧
      (j.Attended → Receives c head s floor x [.error (.revisionCompacted (s.revision + 1) floor)])

theorem told_error (head : String) (e : Failure) :
    [Except.error e].map (WatchJob.tell head) = [.error e] := rfl

theorem told_news (head : String) (R : Int) (batches : List Batch) :
    ((news head R batches).map .ok).map (WatchJob.tell head) =
      (news head R batches).map fun b => .ok (Changes.ofBatch (some head) b) := by
  rw [List.map_map]
  rfl

theorem replay_map (m : ValueMap) (bs : List Batch) :
    replay m (bs.map fun b => .ok (Changes.ofBatch (some head) b)) =
      bs.foldl (fun m b => (Changes.ofBatch (some head) b).applyTo m) m := by
  rw [replay, List.foldl_map]

theorem replay_upto {y : Annals} (hy : y.Faithful) (ha : a.Faithful) (hya : y.Precedes a) (hs : Fetched head s a)
    {r : Int} (hR : s.revision ≤ r) (hf : y.store.floor ≤ r) (hr : r ≤ y.store.revision) :
    replay (s.listing.valueMap head) (((news head s.revision a.batches).filter (·.revision ≤ r)).map
      fun b => .ok (Changes.ofBatch (some head) b)) = valuesUnder head (y.store.asOf r) := by
  have hview : y.store.asOf r = a.view r := by
    rw [hya.view r hr]
    exact hy.asOf (Int.le_trans hs.pos hR) hf hr
  rw [replay_map, hs.values, foldl_news ha hR, hview]

/-- What a watch since a snapshot tells, and that it tells it all. -/
theorem gap_free {names : List String} {x y : Follower} (hy : Leads c head (start c head names) y)
    (hx : Leads c head y x) (hs : x.stage = .watching s j received floor) :
    Told c head s j received x y.store floor := by
  obtain ⟨hky, _⟩ := hy.keeps (keeps_start c head names)
  obtain ⟨hkx, hyx⟩ := hx.keeps hky
  have ha := hkx.faithful
  have hf := hkx.follows
  rw [hs] at hf
  cases floor with
  | none =>
    obtain ⟨_, _, ⟨hnil, _⟩ | ⟨k, hflows⟩⟩ := hf
    · exact .inl hnil
    · have hsent := hflows.received_prefix_due
      rw [told_error] at hsent
      rcases List.prefix_cons_iff.1 hsent with hnil | ⟨t, ht, hpre⟩
      · exact .inl hnil
      · rw [List.prefix_nil.1 hpre] at ht
        exact .inr ⟨k, ht⟩
  | some floor =>
    obtain ⟨hfetched, hflows⟩ := hf
    have hsent := hflows.received_prefix_due
    have hwhole := hflows.whole
    have hrec := fun hj => Keeps.receives (c := c) (j.load x.store + 1) hkx hs hj (Nat.lt_succ_self _)
    simp only [Told]
    by_cases hfloor : floor ≤ s.revision + 1
    · rw [if_pos hfloor]
      rw [due, if_pos hfloor, told_news] at hsent hwhole hrec
      have htold : received = ((news head s.revision x.annals.batches).take received.length).map
          fun b => .ok (Changes.ofBatch (some head) b) := by
        rw [List.map_take]
        exact List.prefix_iff_eq_take.1 hsent
      have hstopped : j.forwarder.isStopped = true →
          j.forwarder.cancelled = true ∨ j.forwarder.out.abandoned = true := by
        intro hstop
        rcases hflows.ends hstop with hc | ha | ⟨hl, _⟩
        · exact .inl hc
        · exact .inr ha
        · exact absurd hfloor (of_decide_eq_false hl)
      refine ⟨rising_news ha.rising head _, fun b hb => mem_news ha hb, htold, hwhole, hstopped, hrec,
        fun r n hR hyf hyr hn hle => ?_⟩
      have hupto := List.prefix_iff_eq_take.1 (news_upto ha head s.revision (Int.le_trans hyr hyx.revision_le))
      have htake : received.take n = ((news head s.revision x.annals.batches).filter (·.revision ≤ r)).map
          fun b => .ok (Changes.ofBatch (some head) b) := by
        rw [htold, ← List.map_take, List.take_take, Nat.min_eq_left hle, hupto, ← hn]
      rw [htake]
      exact replay_upto hky.faithful ha hyx hfetched hR hyf hyr
    · rw [if_neg hfloor]
      rw [due, if_neg hfloor, told_error] at hsent hwhole hrec
      exact ⟨hsent, hwhole, hrec⟩

end

/-- A key of the snapshot goes before the watch begins, and the one that came for it after. -/
def renamed : List Act :=
  [.other (.call (.put (Utf8.encode "p/a") [1] none)),
    .fetch ⟨0, ⟨0, 0⟩, .answered⟩,
    .other (.call (.txn (.always [.put (Utf8.encode "p/b") [2] none, .delete (.single (Utf8.encode "p/a")),
      .put (Utf8.encode "p/b") [3] none]))),
    .other (.call (.put (Utf8.encode "q") [4] none)),
    .watch, .work,
    .other (.call (.deleteRange (.single (Utf8.encode "p/b")))),
    .work, .work, .work, .work, .take, .take]

theorem gap_free_renamed :
    let c : Client := .ofConfig Config.standard
    let x := renamed.foldl (fun x k => x.act c "p/" k) (start c "p/" ["a"])
    Leads c "p/" (start c "p/" ["a"]) x ∧
      ∃ s j received floor, x.stage = .watching s j received floor ∧
        received.map (·.toOption) = [some ⟨.ofList [("b", ⟨"b", [3], 2, 3, 3, 0⟩)], ["a"]⟩, some ⟨.empty, ["b"]⟩] ∧
        Told c "p/" s j received x x.store floor := by
  intro c x
  have hx : Leads c "p/" (start c "p/" ["a"]) x := by
    apply (Leads.refl _).acts renamed
    intro k hk z
    simp only [renamed, List.mem_cons, List.not_mem_nil, or_false] at hk
    rcases hk with rfl | rfl | rfl | rfl | rfl | rfl | rfl | rfl | rfl | rfl | rfl | rfl | rfl
    · exact z.allows_call fun _ h => ⟨_, h⟩
    · trivial
    · apply z.allows_call
      intro _ h
      obtain ⟨op, ho, hp⟩ := h
      simp only [Txn.always, List.mem_cons, List.not_mem_nil, or_false] at ho
      rcases ho with rfl | rfl | rfl
      · exact ⟨_, hp⟩
      · exact nomatch hp
      · exact ⟨_, hp⟩
    · exact z.allows_call fun _ h => ⟨_, h⟩
    · trivial
    · trivial
    · exact z.allows_call fun _ h => nomatch h
    all_goals trivial
  have hr : x.stage.received.map (·.toOption) =
      [some ⟨.ofList [("b", ⟨"b", [3], 2, 3, 3, 0⟩)], ["a"]⟩, some ⟨.empty, ["b"]⟩] := by
    decide +kernel
  cases hs : x.stage with
  | fetching p =>
    rw [hs] at hr
    cases hr
  | watching s j received floor =>
    rw [hs] at hr
    exact ⟨hx, s, j, received, floor, rfl, hr, gap_free hx (.refl x) hs⟩

end Follower

end Keyspace
