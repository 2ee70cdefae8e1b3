import Keyspace.Proofs.Lock.Release
import Keyspace.Proofs.Lock.Tenure

/-!
# Locks change hands

Any number of jobs take, read and release the lock of one key, while others do what they like to other keys and to
leases, and each call of a job has its line. A release ends no lease but that of the lock that it saw, and of the
releases of one lock at most one is told that it ended it (`Turnover.release_frees_one`).
-/

namespace Keyspace

open Ledger (Line)

/-! ## Lines -/

namespace Store

variable {s : Store} {now due : Nat} {k : Bytes} {y : Record}

/-- A key whose lease is not due stays. -/
theorem current_expire (h : s.Sound) (hb : s.BindsAll) (hy : s.current k = some y)
    (hd : s.deadline? y.lease = some due) (hn : now < due) : (s.expire now).current k = some y := by
  rw [(endsInTurn_expire h hb now).current, Option.filter_eq_some_iff]
  refine ⟨hy, decide_eq_true fun hm => ?_⟩
  obtain ⟨l, hl, hle⟩ := s.mem_due.1 hm
  obtain ⟨l', hl', rfl⟩ := Option.map_eq_some_iff.1 hd
  cases hl.symm.trans hl'
  omega

theorem current_leaseRevoke {lease : Int} (h : s.Sound) (hb : s.BindsAll) (hy : s.current k = some y)
    (hd : s.deadline? y.lease = some due) (hn : now < due) (hne : lease ≠ y.lease) :
    (s.answer now (.leaseRevoke lease)).2.current k = some y := by
  have hx := current_expire h hb hy hd hn
  simp only [answer]
  cases hr : (s.expire now).revoke? lease with
  | none => exact hx
  | some t =>
    have he := ends_of_revoke? (leads_expire h now).1 (bindsAll_expire h hb now) hr
    show t.current k = some y
    rw [he.current, Option.filter_eq_some_iff]
    exact ⟨hx, decide_eq_true hne.symm⟩

theorem answer_leaseRevoke_of_none {lease : Int} (h : s.Sound) (hb : s.BindsAll) (hl : s.leases.get? lease = none) :
    (s.answer now (.leaseRevoke lease)).1 = .error (.leaseNotFound lease) := by
  have hr : (s.expire now).revoke? lease = none := by
    rw [revoke?_eq, get?_leases_expire h hb, hl]
    rfl
  simp only [answer, hr]

end Store

namespace Ledger.Line

/-- The store after the call. -/
def left (e : Line) : Store := if e.reached then (e.found.answer e.now e.call).2 else e.found

/-- What a line says goes with what was taken of the key, and with the leases that ended. -/
structure Vouched (k : Bytes) (taken : List Hold) (ended : List Ending) (e : Line) : Prop where
  sound : e.found.Sound
  binds : e.found.BindsAll
  heard : ∀ a, e.heard = .ok a → e.reached = true ∧ (e.found.answer e.now e.call).1 = .ok a
  owned : ∀ y, (e.found.expire e.now).current k = some y → y.NamesLease ∧ ⟨y.lease, y.modRevision⟩ ∈ taken
  freed : ∀ lease, e.freed? = some lease → ⟨lease, e.found.expire e.now, e.left⟩ ∈ ended

variable {k : Bytes} {taken taken' : List Hold} {ended ended' : List Ending} {e : Line} {key : String}

theorem eq_of_freed? {lease : Int} (h : e.freed? = some lease) :
    e = ⟨e.now, .leaseRevoke lease, e.found, e.reached, .ok ()⟩ := by
  obtain ⟨now, c, s, reached, r⟩ := e
  cases c with
  | leaseRevoke l =>
    cases r with
    | ok a =>
      cases h
      rfl
    | error f => cases h
  | _ => cases r <;> cases h

theorem Vouched.mono (h : e.Vouched k taken ended) (ht : taken ⊆ taken') (he : ended ⊆ ended') :
    e.Vouched k taken' ended' where
  sound := h.sound
  binds := h.binds
  heard := h.heard
  owned y hy := ⟨(h.owned y hy).1, ht (h.owned y hy).2⟩
  freed lease hl := he (h.freed lease hl)

theorem Vouched.shown (h : e.Vouched k taken ended) (hc : e.call = .look key) {o : Option Record}
    (ho : e.shown? = some o) : (e.found.expire e.now).current (Utf8.encode key) = o := by
  obtain ⟨now, c, s, reached, r⟩ := e
  cases hc
  cases r with
  | error f => cases ho
  | ok a =>
    have hanswer := (h.heard a rfl).2
    simp only at hanswer ⊢
    rw [Store.answer_look h.sound] at hanswer
    have hx := (Store.leads_expire h.sound now).1
    generalize s.expire now = x at *
    cases hanswer
    have ho : some ((x.current (Utf8.encode key)).toList.find? (·.createRevision ≠ 0)) = some o := ho
    cases hcur : x.current (Utf8.encode key) with
    | none =>
      rw [hcur] at ho
      exact Option.some.inj ho
    | some y =>
      obtain ⟨_, _, hf⟩ := hx.dated.current hcur
      have hcreated : y.createRevision ≠ 0 := Int.ne_of_gt hf.create_pos
      rw [hcur] at ho
      simpa [hcreated] using ho

theorem left_of_look (hc : e.call = .look key) : e.left = e.found ∨ e.left = e.found.expire e.now := by
  unfold left
  split
  · rw [hc]
    exact .inr rfl
  · exact .inl rfl

/-- A lease that is neither due nor asked to end keeps its record. -/
theorem Vouched.spares (h : e.Vouched k taken ended) {y : Record} {due : Nat}
    (hc : e.call = .look key ∨ ∃ lease, e.call = .leaseRevoke lease ∧ lease ≠ y.lease)
    (hy : e.found.current k = some y) (hd : e.found.deadline? y.lease = some due) (hn : e.now < due) :
    e.left.current k = some y ∧ e.left.deadline? y.lease = some due := by
  unfold left
  split
  · obtain hc | ⟨lease, hc, hne⟩ := hc
    · rw [hc]
      exact ⟨Store.current_expire h.sound h.binds hy hd hn, Store.deadline?_expire h.sound h.binds hd hn⟩
    · rw [hc]
      exact ⟨Store.current_leaseRevoke h.sound h.binds hy hd hn hne,
        Store.deadline?_answer h.sound h.binds hd hn fun he => hne (Call.leaseRevoke.inj he)⟩
  · exact ⟨hy, hd⟩

end Ledger.Line

/-! ## Turns of a job -/

/-- What a job has before it: the ground, the takes of the key so far, and its own lines. -/
structure Booth where
  ground : Ground
  taken : List Hold
  lines : List Line

namespace Booth

def serve (k : Bytes) (t : Turn) (c : Call) (σ : Booth) : Outcome c.Answer × Booth :=
  ((σ.ground.serve t c).1, ⟨(σ.ground.serve t c).2, σ.taken ++ (σ.ground.takes? k t c).toList,
    σ.lines ++ [⟨t.now, c, σ.ground.backend.store, σ.ground.backend.reaches t c, (σ.ground.serve t c).1⟩]⟩)

structure Fair (k : Bytes) (σ : Booth) : Prop where
  reached : σ.ground.backend.Reached
  tenure : σ.ground.Tenure k σ.taken

structure Adds (k : Bytes) (σ τ : Booth) : Prop where
  fair : τ.Fair k
  taken : σ.taken ⊆ τ.taken
  ended : σ.ground.ended ⊆ τ.ground.ended
  /-- An end that a new line tells of had not come before. -/
  lines : ∀ e ∈ τ.lines, e ∈ σ.lines ∨ e.Vouched k τ.taken τ.ground.ended ∧
    ∀ lease, e.freed? = some lease → ∀ d ∈ σ.ground.ended, d.lease ≠ lease

variable {k : Bytes} {σ : Booth} {c : Call} {φ : Call → Type} {α : Type} {hold? : α → Option Hold}
  {p : Prog Call.Answer φ α}

theorem Fair.refl (h : σ.Fair k) : σ.Adds k σ := ⟨h, fun _ h => h, fun _ h => h, fun _ => .inl⟩

theorem Fair.line (h : σ.Fair k) (t : Turn) (hv : c.Vies k) :
    Line.Vouched k (σ.serve k t c).2.taken (σ.serve k t c).2.ground.ended
      ⟨t.now, c, σ.ground.backend.store, σ.ground.backend.reaches t c, (σ.ground.serve t c).1⟩ := by
  have hx := h.tenure.endAll (σ.ground.backend.store.due t.now)
  have hheard : ∀ a, (σ.ground.serve t c).1 = .ok a →
      σ.ground.backend.reaches t c = true ∧ (σ.ground.backend.store.answer t.now c).1 = .ok a := fun a ha => by
    rw [(Ground.serve_eq t c σ.ground).1] at ha
    cases hr : σ.ground.backend.reaches t c with
    | true => exact ⟨rfl, (Backend.serve_of_reaches hr).2 a ha⟩
    | false => exact absurd ha ((Backend.serve_of_not_reaches hr).2 a)
  refine ⟨h.tenure.sound, h.reached.bindsAll, hheard,
    fun y hy => ⟨(hx.current hy).2, List.mem_append_left _ (hx.owned y hy)⟩, fun lease hl => ?_⟩
  obtain ⟨-, rfl, -, -, hok⟩ := Line.mk.inj (Line.eq_of_freed? hl)
  have hok := eq_of_heq hok
  have hended := Ground.mem_ended_of_serve hok
  rw [Line.left, if_pos (hheard () hok).1]
  exact hended

theorem Fair.serve (h : σ.Fair k) (t : Turn) (hv : c.Vies k) : σ.Adds k (σ.serve k t c).2 := by
  have hline := h.line t hv
  refine ⟨⟨?_, h.tenure.serve t hv⟩, List.subset_append_left .., Ground.ended_serve t c σ.ground, fun e he => ?_⟩
  · show (σ.ground.serve t c).2.backend.Reached
    rw [(Ground.serve_eq t c σ.ground).2]
    rcases σ.ground.backend.serve_cases t c with hs | hs
    · rw [hs]
      exact h.reached.move t.now (.call c)
    · rw [hs]
      exact h.reached
  · rcases List.mem_append.1 he with he | he
    · exact .inl he
    · cases List.mem_singleton.1 he
      refine .inr ⟨hline, fun lease hl d hd heq => ?_⟩
      -- A lease that has ended before is gone for good, and a revocation of it would have been refused.
      obtain ⟨-, rfl, -, -, hok⟩ := Line.mk.inj (Line.eq_of_freed? hl)
      have hgone := (h.tenure.past d hd).1
      rw [heq] at hgone
      have hanswer := (hline.heard () (eq_of_heq hok)).2
      cases hanswer.symm.trans (Store.answer_leaseRevoke_of_none h.tenure.sound h.reached.bindsAll hgone)

/-- A program that vies for the key goes on so, or has ended with what it took. -/
theorem Fair.step (h : σ.Fair k) (hp : p.Vies k hold?) (t : Turn) :
    σ.Adds k (p.step (Booth.serve k t) t σ).2 ∧ ((p.step (Booth.serve k t) t σ).1.Vies k hold? ∨
      ∃ a d, (p.step (Booth.serve k t) t σ).1 = .done a ∧ hold? a = some d ∧
        d ∈ (p.step (Booth.serve k t) t σ).2.taken) := by
  cases p with
  | done a => exact ⟨h.refl, .inl hp⟩
  | sleep _ p => exact ⟨h.refl, .inl hp⟩
  | sleepUntil _ p => exact ⟨h.refl, .inl hp⟩
  | clock p => exact ⟨h.refl, .inl (hp t.now)⟩
  | wallClock p => exact ⟨h.refl, .inl (hp t.today)⟩
  | call _ i p | await i _ p =>
    refine ⟨h.serve t hp.1, ?_⟩
    have hnext := hp.2 _ (Ground.Guarded.serve h.tenure.toGuarded t hp.1).2
    cases hd : i.gains? k (σ.ground.serve t i).1 with
    | none =>
      rw [hd] at hnext
      exact .inl hnext
    | some d =>
      rw [hd] at hnext
      obtain ⟨a, ha, hs⟩ := hnext
      have htaken := Ground.takes?_of_gains? hd
      refine .inr ⟨a, d, ha, hs, List.mem_append_right _ ?_⟩
      rw [htaken]
      exact List.mem_cons_self

end Booth

namespace Job

variable {φ : Call → Type} {j : Job φ} {key : String} {σ : Booth}

def step (serve : (c : Call) → Booth → Outcome c.Answer × Booth) (t : Turn) : Job φ → Booth → Job φ × Booth
  | idle, σ => (idle, σ)
  | acquiring p, σ => (acquiring (p.step serve t σ).1, (p.step serve t σ).2)
  | reading p, σ => (reading (p.step serve t σ).1, (p.step serve t σ).2)
  | releasing p, σ => (releasing (p.step serve t σ).1, (p.step serve t σ).2)

/-- What is kept of a job, with its lines and what was taken. -/
def Conducts (key : String) (taken : List Hold) (ls : List Line) : Job φ → Prop
  | idle => ls = []
  | acquiring p => p.Vies (Utf8.encode key) Client.heldBy? ∨
      ∃ l : Lock, p = .done (.ok l) ∧ ⟨l.lease, l.revision⟩ ∈ taken
  | reading p => p.Vies (Utf8.encode key) fun _ => none
  | releasing p => p.Vies (Utf8.encode key) (fun _ => none) ∧ p.Throughout Logs (Release.Releases key) ls

theorem Conducts.mono {taken taken' : List Hold} {ls : List Line} (h : j.Conducts key taken ls) (ht : taken ⊆ taken') :
    j.Conducts key taken' ls := by
  cases j with
  | acquiring p => exact h.imp_right fun ⟨l, hp, hl⟩ => ⟨l, hp, ht hl⟩
  | idle | reading p | releasing p => exact h

theorem Begins.conducts (h : j.Begins key) (taken : List Hold) : j.Conducts key taken [] := by
  cases h with
  | acquire c r h => exact h ▸ .inl (c.vies_acquireLock r)
  | read c => exact c.vies_readLock key
  | release c => exact ⟨c.vies_releaseLock key, Release.throughout_releaseLock c key⟩
  | leave => rfl

theorem Conducts.step (h : j.Conducts key σ.taken σ.lines) (hσ : σ.Fair (Utf8.encode key)) (t : Turn) :
    σ.Adds (Utf8.encode key) (j.step (Booth.serve (Utf8.encode key) t) t σ).2 ∧
      (j.step (Booth.serve (Utf8.encode key) t) t σ).1.Conducts key
        (j.step (Booth.serve (Utf8.encode key) t) t σ).2.taken
        (j.step (Booth.serve (Utf8.encode key) t) t σ).2.lines := by
  cases j with
  | idle => exact ⟨hσ.refl, h⟩
  | reading p =>
    obtain ⟨hadds, hv | ⟨_, _, _, hd, _⟩⟩ := hσ.step h t
    · exact ⟨hadds, hv⟩
    · cases hd
  | acquiring p =>
    rcases h with hv | ⟨l, rfl, hl⟩
    · obtain ⟨hadds, hv | ⟨a, d, ha, hd, hm⟩⟩ := hσ.step hv t
      · exact ⟨hadds, .inl hv⟩
      · cases a with
        | error f => cases hd
        | ok l =>
          cases hd
          exact ⟨hadds, .inr ⟨l, ha, hm⟩⟩
    · exact ⟨hσ.refl, .inr ⟨l, rfl, hl⟩⟩
  | releasing p =>
    have hthrough : (p.step (Booth.serve (Utf8.encode key) t) t σ).1.Throughout Logs (Release.Releases key)
        (p.step (Booth.serve (Utf8.encode key) t) t σ).2.lines :=
      h.2.step (f := Booth.lines) t fun _ => ⟨_, _, _, rfl⟩
    obtain ⟨hadds, hv | ⟨_, _, _, hd, _⟩⟩ := hσ.step h.1 t
    · exact ⟨hadds, hv, hthrough⟩
    · cases hd

end Job

/-! ## Turnovers -/

/-- Jobs at one key with their lines, and the takes of the key, whether they were heard of or not. -/
structure Turnover (φ : Call → Type) where
  ground : Ground
  taken : List Hold
  jobs : Nat → Job φ
  lines : Nat → List Line

namespace Turnover

variable {φ : Call → Type} {key : String} {x y : Turnover φ}

def booth (x : Turnover φ) (i : Nat) : Booth := ⟨x.ground, x.taken, x.lines i⟩

/-- Job `i` is left as `j`, with its booth. -/
def set (x : Turnover φ) (i : Nat) (j : Job φ) (σ : Booth) : Turnover φ where
  ground := σ.ground
  taken := σ.taken
  jobs n := if n = i then j else x.jobs n
  lines n := if n = i then σ.lines else x.lines n

def turn (key : String) (x : Turnover φ) (i : Nat) (t : Turn) : Turnover φ :=
  let (j, σ) := (x.jobs i).step (Booth.serve (Utf8.encode key) t) t (x.booth i)
  x.set i j σ

/-- A job that has begun may be left at any of its steps, and stays where it is. -/
inductive Step (key : String) : Turnover φ → Turnover φ → Prop
  | other (x : Turnover φ) (now : Nat) (m : Move) (h : ¬ m.Writes (Utf8.encode key)) :
    Step key x { x with ground := x.ground.move now m }
  | begin (x : Turnover φ) (i : Nat) (j : Job φ) (hi : x.jobs i = .idle) (h : j.Begins key) :
    Step key x (x.set i j (x.booth i))
  | turn (x : Turnover φ) (i : Nat) (t : Turn) : Step key x (x.turn key i t)

inductive Reached (key : String) : Turnover φ → Prop
  | start (names : List String) : Reached key ⟨⟨.ofMembers names, []⟩, [], fun _ => .idle, fun _ => []⟩
  | step {x y : Turnover φ} (h : Reached key x) (hs : Step key x y) : Reached key y

structure Keeps (key : String) (x : Turnover φ) : Prop where
  reached : x.ground.backend.Reached
  tenure : x.ground.Tenure (Utf8.encode key) x.taken
  conducts : ∀ i, (x.jobs i).Conducts key x.taken (x.lines i)
  vouched : ∀ i, ∀ e ∈ x.lines i, e.Vouched (Utf8.encode key) x.taken x.ground.ended
  /-- The end of a lease is heard of by one job. -/
  apart : ∀ i j, ∀ e ∈ x.lines i, ∀ d ∈ x.lines j, ∀ lease, e.freed? = some lease → d.freed? = some lease → i = j

theorem Keeps.set (h : Keeps key x) (i : Nat) {j : Job φ} {σ : Booth} (ha : (x.booth i).Adds (Utf8.encode key) σ)
    (hj : j.Conducts key σ.taken σ.lines) : Keeps key (x.set i j σ) := by
  have hline : ∀ n, ∀ e ∈ (x.set i j σ).lines n, e ∈ x.lines n ∨ n = i ∧
      e.Vouched (Utf8.encode key) σ.taken σ.ground.ended ∧
        ∀ lease, e.freed? = some lease → ∀ d ∈ x.ground.ended, d.lease ≠ lease := by
    intro n e (he : e ∈ if n = i then σ.lines else x.lines n)
    split at he
    · rename_i hn
      subst hn
      exact (ha.lines e he).imp_right fun hnew => ⟨rfl, hnew⟩
    · exact .inl he
  refine ⟨ha.fair.reached, ha.fair.tenure, fun n => ?_, fun n e he => ?_, fun n m e he d hd lease hle hld => ?_⟩
  · show (if n = i then j else x.jobs n).Conducts key σ.taken (if n = i then σ.lines else x.lines n)
    split
    · exact hj
    · exact (h.conducts n).mono ha.taken
  · rcases hline n e he with he | ⟨-, he, -⟩
    · exact (h.vouched n e he).mono ha.taken ha.ended
    · exact he
  · -- What an old line tells of has come before, and what a new one tells of has not, so the two differ.
    rcases hline n e he with hold | ⟨hn, -, hnew⟩
    · rcases hline m d hd with hold' | ⟨-, -, hnew⟩
      · exact h.apart n m e hold d hold' lease hle hld
      · exact absurd rfl (hnew lease hld _ ((h.vouched n e hold).freed lease hle))
    · rcases hline m d hd with hold | ⟨hm, -, -⟩
      · exact absurd rfl (hnew lease hle _ ((h.vouched m d hold).freed lease hld))
      · exact hn.trans hm.symm

theorem Keeps.step (h : Keeps key x) (hs : Step key x y) : Keeps key y := by
  cases hs with
  | other now m hm =>
    have hended : x.ground.ended ⊆ (x.ground.move now m).ended := List.subset_append_left ..
    exact ⟨h.reached.move now m, h.tenure.move now hm, h.conducts,
      fun i e he => (h.vouched i e he).mono (fun _ h => h) hended, h.apart⟩
  | begin i j hi hj =>
    have hlines : x.lines i = [] := by
      have hc := h.conducts i
      rwa [hi] at hc
    have hfair : (x.booth i).Fair (Utf8.encode key) := ⟨h.reached, h.tenure⟩
    refine h.set i hfair.refl ?_
    show j.Conducts key x.taken (x.lines i)
    rw [hlines]
    exact hj.conducts x.taken
  | turn i t =>
    have hfair : (x.booth i).Fair (Utf8.encode key) := ⟨h.reached, h.tenure⟩
    obtain ⟨hadds, hj⟩ := Job.Conducts.step (σ := x.booth i) (h.conducts i) hfair t
    exact h.set i hadds hj

theorem Reached.keeps (h : Reached key x) : Keeps key x := by
  induction h with
  | start names =>
    exact ⟨.ofMembers names, .ofMembers names, fun _ => rfl, fun _ => List.forall_mem_nil _,
      fun _ _ => List.forall_mem_nil _⟩
  | step _ hs ih => exact ih.step hs

/-! ## Releases -/

def released? (x : Turnover φ) (i : Nat) : Option (Outcome Unit) :=
  match x.jobs i with
  | .releasing p => p.result?
  | _ => none

/-- The release was told that it ended the lease of the lock that it saw. -/
def Freed (x : Turnover φ) (i : Nat) (lease : Int) : Prop :=
  x.released? i = some (.ok ()) ∧ ∃ y l, Release.Saw (x.lines i) y l ∧ l.lease = lease

structure FreesSeen (key : String) (x : Turnover φ) (i : Nat) (p : Prog Call.Answer φ (Outcome Unit)) : Prop
    extends Release.Told key p.result? (x.lines i) where
  /-- A look shows what the store has. -/
  looks : ∀ e ∈ x.lines i, ∀ o, e.shown? = some o → (e.found.expire e.now).current (Utf8.encode key) = o
  /-- The lock that is seen is one that was taken, and names the lease that it is bound to. -/
  seen : ∀ y l, Release.Saw (x.lines i) y l → l.lease = y.lease ∧ ⟨y.lease, y.modRevision⟩ ∈ x.taken
  /-- A lock under another lease stays as it is, unless its time is over. -/
  spares : ∀ e ∈ x.lines i, ∀ y due, (∀ z l, Release.Saw (x.lines i) z l → l.lease ≠ y.lease) →
    e.found.current (Utf8.encode key) = some y → e.found.deadline? y.lease = some due → e.now < due →
      e.left.current (Utf8.encode key) = some y ∧ e.left.deadline? y.lease = some due
  /-- Where the end of the lease is heard of it is the one end of the lease, and took the record along. -/
  ends : ∀ e ∈ x.lines i, ∀ lease, e.freed? = some lease →
    ⟨lease, e.found.expire e.now, e.left⟩ ∈ x.ground.ended ∧
      (∀ d ∈ x.ground.ended, d.lease = lease → d = ⟨lease, e.found.expire e.now, e.left⟩) ∧
      Ending.Deletes ⟨lease, e.found.expire e.now, e.left⟩ (Utf8.encode key) ((e.found.expire e.now).revision + 1)
  still : ∀ e ∈ x.lines i, e.call = .look key → e.left = e.found ∨ e.left = e.found.expire e.now

theorem Keeps.freesSeen (h : Keeps key x) {i : Nat} {p : Prog Call.Answer φ (Outcome Unit)}
    (hp : x.jobs i = .releasing p) : FreesSeen key x i p := by
  have hconducts := h.conducts i
  rw [hp] at hconducts
  have htold := (Prog.Throughout.now hconducts.2).told
  have hlooks : ∀ e ∈ x.lines i, ∀ o, e.shown? = some o → (e.found.expire e.now).current (Utf8.encode key) = o := by
    intro e he o ho
    rcases htold.calls e he with hc | ⟨y, l, -, hc⟩
    · exact (h.vouched i e he).shown hc ho
    · cases (Line.shown?_of_revoke hc).symm.trans ho
  have hseen : ∀ y l, Release.Saw (x.lines i) y l → l.lease = y.lease ∧ ⟨y.lease, y.modRevision⟩ ∈ x.taken := by
    rintro y l ⟨⟨e, he, hy⟩, hl⟩
    obtain ⟨hnames, hmem⟩ := (h.vouched i e he).owned y (hlooks e he _ hy)
    exact ⟨hnames.lease_eq hl, hmem⟩
  refine ⟨htold, hlooks, hseen, fun e he y due hne hy hd hn => ?_, fun e he lease hl => ?_,
    fun e _ hc => Line.left_of_look hc⟩
  · have hc : e.call = .look key ∨ ∃ lease, e.call = .leaseRevoke lease ∧ lease ≠ y.lease :=
      (htold.calls e he).imp_right fun ⟨z, l, hsaw, hc⟩ => ⟨l.lease, hc, hne z l hsaw⟩
    exact (h.vouched i e he).spares hc hy hd hn
  · have hended := (h.vouched i e he).freed lease hl
    refine ⟨hended, fun d hd heq => h.tenure.eq_of_lease_eq hd hended heq, ?_⟩
    have hcall := Line.call_of_asked? (Line.asked?_of_freed? hl)
    rcases htold.calls e he with hc | ⟨y, l, hsaw, hc⟩
    · cases hcall.symm.trans hc
    · cases hcall.symm.trans hc
      obtain ⟨hlease, hmem⟩ := hseen y l hsaw
      obtain ⟨revision, hdel⟩ := h.tenure.deletes h.reached.bindsAll hmem hended hlease
      have hsound := (Store.leads_expire (h.vouched i e he).sound e.now).1
      rwa [hdel.eq_succ hsound] at hdel

structure Orderly (key : String) (x : Turnover φ) : Prop where
  acquired : ∀ i l, x.jobs i = .acquiring (.done (.ok l)) → ⟨l.lease, l.revision⟩ ∈ x.taken
  releases : ∀ i p, x.jobs i = .releasing p → FreesSeen key x i p
  once : ∀ lease i j, x.Freed i lease → x.Freed j lease → i = j

theorem release_frees_one (h : Reached key x) : Orderly key x := by
  have hk := h.keeps
  have hfreed : ∀ i lease, x.Freed i lease → ∃ e ∈ x.lines i, e.freed? = some lease := by
    rintro i lease ⟨hok, y, l, hsaw, rfl⟩
    unfold released? at hok
    split at hok
    · rename_i p hp
      obtain ⟨y', l', hsaw', e, he, hl⟩ := (hk.freesSeen hp).freed hok
      obtain ⟨rfl, rfl⟩ := (hk.freesSeen hp).one y l y' l' hsaw hsaw'
      exact ⟨e, he, hl⟩
    · cases hok
  refine ⟨fun i l hi => ?_, fun i p => hk.freesSeen, fun lease i j hi hj => ?_⟩
  · have hc := hk.conducts i
    rw [hi] at hc
    rcases hc with hv | ⟨l', hl', hm⟩
    · cases hv
    · cases hl'
      exact hm
  · obtain ⟨e, he, hl⟩ := hfreed i lease hi
    obtain ⟨d, hd, hl'⟩ := hfreed j lease hj
    exact hk.apart i j e he d hd lease hl hl'

theorem Reached.turns (i : Nat) (ts : List Turn) : ∀ {x : Turnover φ}, Reached key x →
    Reached key (ts.foldl (fun x t => x.turn key i t) x) := by
  induction ts with
  | nil => exact fun h => h
  | cons t ts ih => exact fun h => ih (h.step (.turn _ i t))

def works (x : Turnover φ) (i : Nat) (j : Job φ) (turns now : Nat) : Turnover φ :=
  (List.replicate turns ⟨now, ⟨0, 0⟩, .answered⟩).foldl (fun x t => x.turn "k" i t) (x.set i j (x.booth i))

theorem Reached.works (h : Reached "k" x) {i : Nat} {j : Job φ} (turns now : Nat) (hi : x.jobs i = .idle)
    (hj : j.Begins "k") : Reached "k" (x.works i j turns now) :=
  .turns i _ (h.step (.begin _ i j hi hj))

/-- A release looks at a lock whose time is over before it asks for the end of the lease. The next client has taken the
lock by then, and of two other releases the first frees that. -/
def handover : Turnover fun _ => Unit :=
  let c : Client := .ofConfig Config.standard
  let r : LockRequest := ⟨"k", 1, 5000, 100, []⟩
  let start : Turnover fun _ => Unit := ⟨⟨.ofMembers ["a"], []⟩, [], fun _ => .idle, fun _ => []⟩
  let x := (start.works 0 (.acquiring (c.acquireLock r).run) 6 0).works 1 (.releasing (c.releaseLock "k").run) 1 0
  let y := (x.works 2 (.acquiring (c.acquireLock r).run) 6 1000).turn "k" 1 ⟨1000, ⟨0, 0⟩, .answered⟩
  (y.works 3 (.releasing (c.releaseLock "k").run) 2 1000).works 4 (.releasing (c.releaseLock "k").run) 1 1000

theorem release_frees_one_handover : Reached "k" handover ∧ Orderly "k" handover ∧
    handover.taken = [⟨1, 2⟩, ⟨2, 4⟩] ∧ handover.released? 1 = some (.error (.leaseNotFound 1)) ∧
    handover.released? 3 = some (.ok ()) ∧ (handover.lines 3).filterMap Line.freed? = [2] ∧
    handover.released? 4 = some (.error (.keyNotFound "k")) := by
  have hacquire (x : Turnover fun _ => Unit) (h : Reached "k" x) (i now : Nat) (hi : x.jobs i = .idle) :=
    h.works 6 now hi (.acquire (.ofConfig Config.standard) ⟨"k", 1, 5000, 100, []⟩ rfl)
  have hrelease (x : Turnover fun _ => Unit) (h : Reached "k" x) (i turns now : Nat) (hi : x.jobs i = .idle) :=
    h.works turns now hi (.release (.ofConfig Config.standard))
  have hx := hrelease _ (hacquire _ (.start ["a"]) 0 0 rfl) 1 1 0 rfl
  have hy := (hacquire _ hx 2 1000 rfl).step (.turn _ 1 ⟨1000, ⟨0, 0⟩, .answered⟩)
  have h : Reached "k" handover := hrelease _ (hrelease _ hy 3 2 1000 rfl) 4 1 1000 rfl
  exact ⟨h, release_frees_one h, by decide +kernel, by decide +kernel, by decide +kernel, by decide +kernel,
    by decide +kernel⟩

end Turnover

end Keyspace
