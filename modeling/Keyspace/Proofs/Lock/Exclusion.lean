import Keyspace.Proofs.Lock.Calls
import Keyspace.Proofs.Lock.Guarded

/-!
# Locks exclude each other

Any number of jobs take, read and release the lock of one key, each of which may be left at any of its
steps, while others do what they like to other keys and to leases. Of two locks that were taken the first
ended with its lease before the second was taken (`lock_exclusion`).
-/

namespace Keyspace

/-! ## Calls at a guarded key -/

namespace Guarded

variable {k : Bytes} {won : List Hold} {ended : List Ending} {s : Store}

theorem answer_txn (h : Guarded k won ended s) (now : Nat) {r : LockRequest} {l : Lock} (hk : Utf8.encode r.key = k)
    (hl : l.lease ≠ 0) :
    Guarded k won (ended ++ s.endings (s.due now)) (s.answer now (.txn (r.txn l))).2 ∧
      ∀ g, Call.gains? k (.txn (r.txn l)) (s.answer now (.txn (r.txn l))).1 = some g →
        Guarded k (won ++ [g]) (ended ++ s.endings (s.due now)) (s.answer now (.txn (r.txn l))).2 := by
  subst hk
  have hx : Guarded (Utf8.encode r.key) won (ended ++ s.endings (s.due now)) (s.expire now) := h.endAll (s.due now)
  simp only [Store.answer]
  generalize s.expire now = x at *
  cases hsat : x.satisfies (r.txn l).conditions with
  | false =>
    have hc : x.commit? (r.txn l).failure = .ok x := rfl
    rw [if_neg Bool.false_ne_true, hc]
    refine ⟨hx, fun g hg => ?_⟩
    have hd := r.gains?_txn l ⟨false, x.revision⟩
    rw [if_neg Bool.false_ne_true] at hd
    cases hd.symm.trans hg
  | true =>
    rw [if_pos rfl]
    cases hc : x.commit? (r.txn l).success with
    | error f => exact ⟨hx, fun g hg => by cases hg⟩
    | ok t =>
      obtain ⟨hm, rfl⟩ := Store.commit?_eq_ok hc
      have habsent := ((Store.satisfies_absent hx.sound).1 hsat).1
      have hrev := Store.revision_commit_put hx.sound (Utf8.encode r.key) l.toBytes (some l.lease) []
      obtain ⟨hkeep, htake⟩ := hx.take habsent hl hm
      refine ⟨hkeep, fun g hg => ?_⟩
      have hd := r.gains?_txn l ⟨true, (x.commit (r.txn l).success).revision⟩
      rw [if_pos rfl] at hd
      cases hd.symm.trans hg
      rw [← hrev] at htake
      exact htake

theorem answer (h : Guarded k won ended s) (now : Nat) {c : Call} (hv : c.Vies k) :
    Guarded k won (ended ++ s.endings (s.ends now c)) (s.answer now c).2 ∧
      ∀ g, c.gains? k (s.answer now c).1 = some g →
        Guarded k (won ++ [g]) (ended ++ s.endings (s.ends now c)) (s.answer now c).2 := by
  rcases hv with hw | ⟨r, l, hk, hl, rfl⟩
  · refine ⟨?_, fun g hg => ?_⟩
    · refine (h.endAll _).elsewhere (Store.leads_answer_of_ends h.sound now c) (fun e he hek => hw ?_) fun _ he => he
      rwa [hek] at he
    · rw [Call.gains?_of_not_writes hw] at hg
      cases hg
  · exact h.answer_txn now hk hl

end Guarded

theorem Store.grantsOne_answer {s : Store} (h : s.Sound) (now : Nat) (c : Call) : c.GrantsOne (s.answer now c).1 := by
  cases c with
  | leaseGrant ttl =>
    have hpos := (Store.leads_expire h now).1.nextLease_pos
    simp only [answer]
    split
    · trivial
    · show (s.expire now).nextLease ≠ 0
      omega
  | _ => trivial

/-! ## Ground -/

/-- A backend, with the leases that ended so far. -/
structure Ground where
  backend : Backend
  ended : List Ending

namespace Ground

def move (g : Ground) (now : Nat) (m : Move) : Ground :=
  ⟨g.backend.move now m, g.ended ++ g.backend.store.endings (g.backend.ends now m)⟩

/-- What is heard of a call in a turn, and the ground after. -/
def serve (t : Turn) (c : Call) (g : Ground) : Outcome c.Answer × Ground :=
  match t.fate with
  | .answered => ((g.backend.answer t.now c).1, g.move t.now (.call c))
  | .unheard f => (.error f, g.move t.now (.call c))
  | .lost f => (.error f, g)

def Guarded (k : Bytes) (won : List Hold) (g : Ground) : Prop := Keyspace.Guarded k won g.ended g.backend.store

variable {k : Bytes} {won : List Hold} {g : Ground}

theorem Guarded.move (h : g.Guarded k won) (now : Nat) {m : Move} (hm : ¬ m.Writes k) : (g.move now m).Guarded k won := by
  refine (h.endAll _).elsewhere (Backend.leads_move_of_ends h.sound now m) (fun e he hek => hm ?_) fun _ he => he
  rwa [hek] at he

theorem Guarded.call (h : g.Guarded k won) (now : Nat) {c : Call} (hv : c.Vies k) :
    (g.move now (.call c)).Guarded k won ∧
      ∀ d, c.gains? k (g.backend.answer now c).1 = some d → (g.move now (.call c)).Guarded k (won ++ [d]) := by
  unfold Guarded Ground.move Backend.move Backend.ends
  simp only [Backend.answer]
  cases hf : Backend.meetFault c.name g.backend.faults with
  | none => exact Keyspace.Guarded.answer h now hv
  | some rule =>
    refine ⟨?_, fun d hd => ?_⟩
    · show Keyspace.Guarded k won (g.ended ++ []) g.backend.store
      rw [List.append_nil]
      exact h
    · simp only [Call.gains?_error] at hd
      cases hd

theorem Guarded.serve (h : g.Guarded k won) (t : Turn) {c : Call} (hv : c.Vies k) :
    (g.serve t c).2.Guarded k (won ++ (c.gains? k (g.serve t c).1).toList) ∧ c.GrantsOne (g.serve t c).1 := by
  have herror : ∀ f, c.GrantsOne (.error f) := fun f => by cases c <;> trivial
  obtain ⟨hkeep, hgain⟩ := h.call t.now hv
  unfold Ground.serve
  cases t.fate with
  | lost f =>
    simp only [Call.gains?_error, Option.toList_none, List.append_nil]
    exact ⟨h, herror f⟩
  | unheard f =>
    simp only [Call.gains?_error, Option.toList_none, List.append_nil]
    exact ⟨hkeep, herror f⟩
  | answered =>
    simp only
    constructor
    · cases hd : c.gains? k (g.backend.answer t.now c).1 with
      | none =>
        rw [Option.toList_none, List.append_nil]
        exact hkeep
      | some d => exact hgain d hd
    · rcases g.backend.answer_cases t.now c with ⟨⟨f, hr⟩, _⟩ | ⟨hr, _⟩
      · rw [hr]
        exact herror _
      · rw [hr]
        exact Store.grantsOne_answer (Keyspace.Guarded.sound h) t.now c

theorem Guarded.step {φ : Call → Type} {α : Type} {hold? : α → Option Hold} {p : Prog Call.Answer φ α}
    (h : g.Guarded k won) (hp : p.Vies k hold?) (t : Turn) :
    ((p.step (Ground.serve t) t g).2.Guarded k won ∧ (p.step (Ground.serve t) t g).1.Vies k hold?) ∨
      ∃ a d, (p.step (Ground.serve t) t g).1 = .done a ∧ hold? a = some d ∧
        (p.step (Ground.serve t) t g).2.Guarded k (won ++ [d]) := by
  cases p with
  | done a => exact .inl ⟨h, hp⟩
  | sleep _ p => exact .inl ⟨h, hp⟩
  | sleepUntil _ p => exact .inl ⟨h, hp⟩
  | clock p => exact .inl ⟨h, hp t.now⟩
  | wallClock p => exact .inl ⟨h, hp t.today⟩
  | call _ i p | await i _ p =>
    obtain ⟨hserved, hgrants⟩ := h.serve t hp.1
    have hnext := hp.2 _ hgrants
    cases hd : i.gains? k (g.serve t i).1 with
    | none =>
      rw [hd] at hnext hserved
      rw [Option.toList_none, List.append_nil] at hserved
      exact .inl ⟨hserved, hnext⟩
    | some d =>
      rw [hd] at hnext hserved
      obtain ⟨a, ha, hs⟩ := hnext
      exact .inr ⟨a, d, ha, hs, hserved⟩

end Ground

/-! ## Contests -/

inductive Job (φ : Call → Type)
  | idle
  | acquiring (p : Prog Call.Answer φ (Outcome Lock))
  | reading (p : Prog Call.Answer φ (Outcome Lock))
  | releasing (p : Prog Call.Answer φ (Outcome Unit))

variable {φ : Call → Type}

namespace Job

/-- A turn of a job, with what it took if it ends with a lock. -/
def turn (t : Turn) (g : Ground) : Job φ → Job φ × Ground × Option Hold
  | idle => (idle, g, none)
  | acquiring p =>
    match p.step (Ground.serve t) t g with
    | (.done x, g) => (idle, g, Client.heldBy? x)
    | (p, g) => (acquiring p, g, none)
  | reading p =>
    let (p, g) := p.step (Ground.serve t) t g
    (reading p, g, none)
  | releasing p =>
    let (p, g) := p.step (Ground.serve t) t g
    (releasing p, g, none)

inductive Begins (key : String) : Job φ → Prop
  | acquire (c : Client) (r : LockRequest) (h : r.key = key) : Begins key (acquiring (c.acquireLock r).run)
  | read (c : Client) : Begins key (reading (c.readLock key).run)
  | release (c : Client) : Begins key (releasing (c.releaseLock key).run)
  | leave : Begins key idle

def Vies (k : Bytes) : Job φ → Prop
  | idle => True
  | acquiring p => p.Vies k Client.heldBy?
  | reading p => p.Vies k fun _ => none
  | releasing p => p.Vies k fun _ => none

theorem Begins.vies {key : String} {j : Job φ} (h : j.Begins key) : j.Vies (Utf8.encode key) := by
  cases h with
  | acquire c r h => exact h ▸ c.vies_acquireLock r
  | read c => exact c.vies_readLock key
  | release c => exact c.vies_releaseLock key
  | leave => trivial

theorem Vies.turn {k : Bytes} {won : List Hold} {g : Ground} {j : Job φ} (hj : j.Vies k) (hg : g.Guarded k won)
    (t : Turn) :
    (j.turn t g).1.Vies k ∧ (j.turn t g).2.1.Guarded k (won ++ (j.turn t g).2.2.toList) := by
  cases j with
  | idle => exact ⟨trivial, by simpa [Job.turn] using hg⟩
  | acquiring p =>
    simp only [Job.turn]
    rcases hg.step hj t with ⟨hkeep, hv⟩ | ⟨a, d, ha, hd, hgain⟩
    · split
      · rename_i x g' hx
        rw [hx] at hkeep hv
        have hnone : Client.heldBy? x = none := hv
        rw [hnone, Option.toList_none, List.append_nil]
        exact ⟨trivial, hkeep⟩
      · rename_i p' g' _ hx
        rw [hx] at hkeep hv
        rw [Option.toList_none, List.append_nil]
        exact ⟨hv, hkeep⟩
    · split
      · rename_i x g' hx
        rw [hx] at ha hgain
        cases ha
        rw [hd]
        exact ⟨trivial, hgain⟩
      · rename_i p' g' hne hx
        rw [hx] at ha
        exact (hne a ha).elim
  | reading p | releasing p =>
    simp only [Job.turn, Option.toList_none, List.append_nil]
    rcases hg.step hj t with ⟨hkeep, hv⟩ | ⟨_, _, _, hd, _⟩
    · exact ⟨hv, hkeep⟩
    · cases hd

end Job

/-- Jobs at one key, with what was taken so far, in the order in which it was. -/
structure Contest (φ : Call → Type) where
  ground : Ground
  jobs : Nat → Job φ
  won : List Hold

namespace Contest

abbrev store (x : Contest φ) : Store := x.ground.backend.store

def setJob (x : Contest φ) (i : Nat) (j : Job φ) : Contest φ :=
  { x with jobs := fun n => if n = i then j else x.jobs n }

def turn (x : Contest φ) (i : Nat) (t : Turn) : Contest φ :=
  let (j, g, d) := (x.jobs i).turn t x.ground
  { x.setJob i j with ground := g, won := x.won ++ d.toList }

inductive Step (key : String) : Contest φ → Contest φ → Prop
  | other (x : Contest φ) (now : Nat) (m : Move) (h : ¬ m.Writes (Utf8.encode key)) :
    Step key x { x with ground := x.ground.move now m }
  | begin (x : Contest φ) (i : Nat) (j : Job φ) (h : j.Begins key) : Step key x (x.setJob i j)
  | turn (x : Contest φ) (i : Nat) (t : Turn) : Step key x (x.turn i t)

inductive Reached (key : String) : Contest φ → Prop
  | start (names : List String) : Reached key ⟨⟨.ofMembers names, []⟩, fun _ => .idle, []⟩
  | step {x y : Contest φ} (h : Reached key x) (hs : Step key x y) : Reached key y

structure Keeps (key : String) (x : Contest φ) : Prop where
  guarded : x.ground.Guarded (Utf8.encode key) x.won
  vies : ∀ i, (x.jobs i).Vies (Utf8.encode key)

variable {key : String} {x y : Contest φ}

theorem Keeps.setJob (h : Keeps key x) (i : Nat) {j : Job φ} (hj : j.Vies (Utf8.encode key)) (n : Nat) :
    ((x.setJob i j).jobs n).Vies (Utf8.encode key) := by
  show (if n = i then j else x.jobs n).Vies _
  split
  · exact hj
  · exact h.vies n

theorem Keeps.step (h : Keeps key x) (hs : Step key x y) : Keeps key y := by
  cases hs with
  | other now m hm => exact ⟨h.guarded.move now hm, h.vies⟩
  | begin i j hj => exact ⟨h.guarded, h.setJob i hj.vies⟩
  | turn i t =>
    obtain ⟨hj, hg⟩ := (h.vies i).turn h.guarded t
    exact ⟨hg, h.setJob i hj⟩

theorem Reached.keeps (h : Reached key x) : Keeps key x := by
  induction h with
  | start names => exact ⟨.ofMembers names, fun _ => trivial⟩
  | step _ hs ih => exact ih.step hs

/-! ## Exclusion -/

/-- The lock was taken by `revision`, and its lease had not taken it along by then. -/
def InForce (key : String) (x : Contest φ) (h : Hold) (revision : Int) : Prop :=
  h.revision ≤ revision ∧
    ∀ e ∈ x.ground.ended, e.lease = h.lease → ∀ d, e.Deletes (Utf8.encode key) d → revision < d

structure Exclusive (key : String) (x : Contest φ) : Prop where
  /-- Of two locks the first ended with its lease, at a revision between those of the two. -/
  apart : ∀ (i j : Nat) (g h : Hold), i ≠ j → x.won[i]? = some g → x.won[j]? = some h →
    g.lease ≠ h.lease ∧ g.revision ≠ h.revision ∧ (g.revision < h.revision →
      ∃ e ∈ x.ground.ended, e.lease = g.lease ∧
        ∃ d, e.Deletes (Utf8.encode key) d ∧ g.revision < d ∧ d < h.revision)
  rising : x.won.Pairwise fun g h => g.revision < h.revision
  one : ∀ (i j : Nat) (g h : Hold) (r : Int), x.won[i]? = some g → x.won[j]? = some h →
    InForce key x g r → InForce key x h r → i = j
  /-- A lock that is in force is what the store shows. -/
  shown : ∀ h ∈ x.won, ∀ r, InForce key x h r → x.store.floor ≤ r → r ≤ x.store.revision →
    ∃ y, (x.store.asOf r).get? (Utf8.encode key) = some y ∧ y.lease = h.lease ∧ y.modRevision = h.revision
  /-- Whatever the store shows is bound to the lease that its payload names. -/
  named : ∀ r, x.store.floor ≤ r → r ≤ x.store.revision → ∀ y,
    (x.store.asOf r).get? (Utf8.encode key) = some y → y.lease ≠ 0 ∧ y.NamesLease ∧
      ∀ l, Lock.ofBytes? y.value = some l → l.lease = y.lease

theorem Keeps.before (h : Keeps key x) {i j : Nat} {g g' : Hold} (hij : i < j) (hi : x.won[i]? = some g)
    (hj : x.won[j]? = some g') : g.Before (Utf8.encode key) x.ground.ended g' := by
  obtain ⟨hli, rfl⟩ := List.getElem?_eq_some_iff.1 hi
  obtain ⟨hlj, rfl⟩ := List.getElem?_eq_some_iff.1 hj
  exact List.pairwise_iff_getElem.1 (Guarded.apart h.guarded) i j hli hlj hij

theorem Keeps.not_inForce (h : Keeps key x) {i j : Nat} {g g' : Hold} {r : Int} (hij : i < j)
    (hi : x.won[i]? = some g) (hj : x.won[j]? = some g') (hg' : InForce key x g' r) : ¬ InForce key x g r := by
  intro hg
  obtain ⟨_, e, he, hl, d, hd, _, hlt⟩ := h.before hij hi hj
  have hr := hg.2 e he hl d hd
  have hr' := hg'.1
  omega

theorem lock_exclusion (h : Reached key x) : Exclusive key x := by
  have hk := h.keeps
  refine ⟨fun i j g g' hij hi hj => ?_, ?_, fun i j g g' r hi hj hg hg' => ?_, fun g hm r hg hf hr => ?_,
    fun r hf hr y hy => ?_⟩
  · rcases Nat.lt_or_gt_of_ne hij with hlt | hlt
    · obtain ⟨hne, e, he, hl, d, hd, hd₁, hd₂⟩ := hk.before hlt hi hj
      exact ⟨hne, by omega, fun _ => ⟨e, he, hl, d, hd, hd₁, hd₂⟩⟩
    · obtain ⟨hne, e, he, hl, d, hd, hd₁, hd₂⟩ := hk.before hlt hj hi
      exact ⟨hne.symm, by omega, fun _ => by omega⟩
  · refine (Guarded.apart hk.guarded).imp fun hb => ?_
    obtain ⟨_, e, _, _, d, _, hd₁, hd₂⟩ := hb
    omega
  · rcases Nat.lt_trichotomy i j with hlt | rfl | hlt
    · exact absurd hg (hk.not_inForce hlt hi hj hg')
    · rfl
    · exact absurd hg' (hk.not_inForce hlt hj hi hg)
  · rcases Guarded.stands hk.guarded g hm with hb | ⟨e, d, ho⟩
    · exact hb.shown r hg.1 (Int.lt_add_one_of_le hr) hf
    · exact ho.shown r hg.1 (hg.2 e ho.mem ho.lease d ho.deletes) hf
  · obtain ⟨h0, hn⟩ := Guarded.locks hk.guarded r hf hr y hy
    exact ⟨h0, hn, fun l hl => hn.lease_eq hl⟩

theorem Reached.turns (i : Nat) (ts : List Turn) : ∀ {x : Contest φ}, Reached key x →
    Reached key (ts.foldl (fun x t => x.turn i t) x) := by
  induction ts with
  | nil => exact fun h => h
  | cons t ts ih => exact fun h => ih (h.step (.turn _ i t))

/-- A client takes the lock for a second, and once that is over another one does. -/
def relay : Contest fun _ => Unit :=
  let c : Client := .ofConfig Config.standard
  let r : LockRequest := ⟨"k", 1, 5000, 100, []⟩
  let turns (i now : Nat) (x : Contest fun _ => Unit) : Contest fun _ => Unit :=
    (List.replicate 6 ⟨now, ⟨0, 0⟩, .answered⟩).foldl (fun x t => x.turn i t)
      (x.setJob i (.acquiring (c.acquireLock r).run))
  turns 1 1000 (turns 0 0 ⟨⟨.ofMembers ["a"], []⟩, fun _ => .idle, []⟩)

theorem lock_exclusion_relay : Reached "k" relay ∧ relay.won = [⟨1, 2⟩, ⟨2, 4⟩] ∧ Exclusive "k" relay := by
  have h : Reached "k" relay :=
    .turns 1 _ (.step (.turns 0 _ (.step (.start ["a"]) (.begin _ 0 _ (.acquire _ _ rfl)))) (.begin _ 1 _ (.acquire _ _ rfl)))
  exact ⟨h, by decide +kernel, lock_exclusion h⟩

end Contest

end Keyspace
