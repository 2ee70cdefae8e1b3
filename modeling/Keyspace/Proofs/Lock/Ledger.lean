import Keyspace.Proofs.Lock.Calls
import Keyspace.Proofs.Lock.Guarded
import Keyspace.Proofs.Run.Visit

/-!
# Leases that are given back

A ledger keeps what became of each call of one program beside others who do as they like: whether it got to the
store, and what was heard of it. The leases that the taking of a lock is lent are all asked to end again, but for the
lease of the lock that it takes (`ensures_acquireLock`), so if what the store does of that is heard of none is left
behind (`no_lease_left`).
-/

namespace Keyspace

/-! ## Ledgers -/

structure Ledger.Line where
  now : Nat
  call : Call
  /-- The store as it was then. -/
  found : Store
  /-- The call got to the store. -/
  reached : Bool
  heard : Outcome call.Answer

structure Ledger where
  backend : Backend
  /-- The program's calls, the oldest first. -/
  lines : List Ledger.Line

namespace Ledger

namespace Line

/-- The lease that the store granted, whatever was heard of it. -/
def granted? : Line → Option Int
  | ⟨now, .leaseGrant ttl, s, true, _⟩ =>
    match (s.answer now (.leaseGrant ttl)).1 with
    | .ok g => some g.id
    | .error _ => none
  | _ => none

/-- The lease that the program was told of. -/
def lent? : Line → Option Int
  | ⟨_, .leaseGrant _, _, _, .ok g⟩ => some g.id
  | _ => none

/-- The lease whose end was asked for. -/
def asked? : Line → Option Int
  | ⟨_, .leaseRevoke lease, _, _, _⟩ => some lease
  | _ => none

/-- The lease whose end the store was asked for: it took effect, or found the lease gone. -/
def ended? (e : Line) : Option Int := if e.reached then e.asked? else none

end Line

abbrev store (σ : Ledger) : Store := σ.backend.store

def granted (σ : Ledger) : List Int := σ.lines.filterMap Line.granted?

def lent (σ : Ledger) : List Int := σ.lines.filterMap Line.lent?

def asked (σ : Ledger) : List Int := σ.lines.filterMap Line.asked?

def ended (σ : Ledger) : List Int := σ.lines.filterMap Line.ended?

/-- What was granted was heard of, and what was asked to end came to its end. -/
structure Settled (σ : Ledger) : Prop where
  grants : ∀ l ∈ σ.granted, l ∈ σ.lent
  ends : ∀ l ∈ σ.asked, l ∈ σ.ended

def serve (t : Turn) (c : Call) (σ : Ledger) : Outcome c.Answer × Ledger :=
  ((σ.backend.serve t c).1, ⟨(σ.backend.serve t c).2,
    σ.lines ++ [⟨t.now, c, σ.store, σ.backend.reaches t c, (σ.backend.serve t c).1⟩]⟩)

variable {φ : Call → Type} {α : Type}

/-- What a program comes to beside others who move the backend as they like. -/
inductive Reached (b : Backend) (p₀ : Prog Call.Answer φ α) : Prog Call.Answer φ α → Ledger → Prop
  | start : Reached b p₀ p₀ ⟨b, []⟩
  | turn {p : Prog Call.Answer φ α} {σ : Ledger} (h : Reached b p₀ p σ) (t : Turn) :
    Reached b p₀ (p.step (serve t) t σ).1 (p.step (serve t) t σ).2
  | other {p : Prog Call.Answer φ α} {σ : Ledger} (h : Reached b p₀ p σ) (now : Nat) (m : Move) :
    Reached b p₀ p ⟨σ.backend.move now m, σ.lines⟩

variable {b : Backend} {p₀ p : Prog Call.Answer φ α} {σ τ : Ledger} {c : Call}

theorem filterMap_snoc {β : Type} (f : Line → Option β) {e : Line} (he : τ.lines = σ.lines ++ [e]) :
    τ.lines.filterMap f = σ.lines.filterMap f ++ (f e).toList := by
  rw [he, List.filterMap_append]
  cases hf : f e <;> simp [hf]

theorem Reached.turns (ts : List Turn) : ∀ {p : Prog Call.Answer φ α} {σ : Ledger}, Reached b p₀ p σ →
    Reached b p₀ (p.steps serve ts σ).1 (p.steps serve ts σ).2 := by
  induction ts with
  | nil => exact fun h => h
  | cons t ts ih => exact fun h => ih (h.turn t)

theorem Reached.backend (h : Reached b p₀ p σ) (hb : b.Reached) : σ.backend.Reached := by
  induction h with
  | start => exact hb
  | @turn p σ h t ih =>
    refine Prog.step_inv (I := fun σ : Ledger => σ.backend.Reached) ih (fun c => ?_) t p
    show (σ.backend.serve t c).2.Reached
    rcases σ.backend.serve_cases t c with hs | hs
    · rw [hs]
      exact ih.move t.now (.call c)
    · rw [hs]
      exact ih
  | other _ now m ih => exact ih.move now m

/-! ## The setting -/

def Serves (c : Call) (σ : Ledger) (r : Outcome c.Answer) (τ : Ledger) : Prop :=
  ∃ now reached, τ.lines = σ.lines ++ [⟨now, c, σ.store, reached, r⟩] ∧
    (reached = true → τ.store = (σ.store.answer now c).2 ∧ ∀ a, r = .ok a → (σ.store.answer now c).1 = .ok a) ∧
    (reached = false → τ.store = σ.store ∧ ∀ a, r ≠ .ok a)

theorem serves_serve (σ : Ledger) (t : Turn) (c : Call) : Serves c σ (σ.serve t c).1 (σ.serve t c).2 :=
  ⟨t.now, σ.backend.reaches t c, rfl, Backend.serve_of_reaches, Backend.serve_of_not_reaches⟩

/-- Any calls, beside any others. -/
def lending : Setting Ledger where
  may _ _ := True
  serves := Serves
  others σ τ := τ.lines = σ.lines ∧ (σ.store.Sound → σ.store.Leads (fun _ => True) τ.store)
  refl _ := ⟨rfl, .refl⟩
  trans h h' := ⟨h'.1.trans h.1, fun hs => (h.2 hs).trans (h'.2 (h.2 hs).1)⟩

theorem Reached.ensures {Q : α → Ledger → Prop} (h : Reached b p₀ p σ) (hp : p₀.Ensures lending Q ⟨b, []⟩) :
    p.Ensures lending Q σ := by
  induction h with
  | start => exact hp
  | turn _ t ih => exact ih.step t fun c _ => serves_serve _ t c
  | other _ now m ih =>
    exact ih.others ⟨rfl, fun hs => (Backend.leads_move hs now m).mono fun _ _ => trivial⟩

theorem Serves.leads {r : Outcome c.Answer} (h : Serves c σ r τ) (hs : σ.store.Sound) :
    σ.store.Leads (fun _ => True) τ.store := by
  obtain ⟨now, reached, -, hyes, hno⟩ := h
  cases reached with
  | true =>
    rw [(hyes rfl).1]
    exact (Store.leads_answer hs now c).mono fun _ _ => trivial
  | false =>
    rw [(hno rfl).1]
    exact .refl hs

theorem Serves.answer {r : Outcome c.Answer} (h : Serves c σ r τ) {a : c.Answer} (ha : r = .ok a) :
    ∃ now, (σ.store.answer now c).1 = .ok a ∧ τ.store = (σ.store.answer now c).2 := by
  obtain ⟨now, reached, -, hyes, hno⟩ := h
  cases reached with
  | true => exact ⟨now, (hyes rfl).2 a ha, (hyes rfl).1⟩
  | false => exact absurd ha ((hno rfl).2 a)

/-! ## What is held -/

/-- Leases that were lent are leases of the store's, and those that came to their end are gone. -/
structure Tracks (σ : Ledger) : Prop where
  sound : σ.store.Sound
  lent : ∀ l ∈ σ.lent, 0 < l ∧ l < σ.store.nextLease ∧ l ∈ σ.granted
  ended : ∀ l ∈ σ.ended, l < σ.store.nextLease ∧ σ.store.leases.get? l = none

/-- All leases that were lent were asked to end, but for the one that is held. -/
structure Holds (held : Option Int) (σ : Ledger) : Prop extends Tracks σ where
  rest : ∀ l ∈ σ.lent, held = some l ∨ l ∈ σ.asked
  held : ∀ l, held = some l → l ∈ σ.lent

variable {held : Option Int} {lease : Int}

theorem Tracks.others (h : Tracks σ) (ho : lending.others σ τ) : Tracks τ := by
  have hl := ho.2 h.sound
  refine ⟨hl.1, fun l hm => ?_, fun l hm => ?_⟩
  · unfold Ledger.lent granted at *
    rw [ho.1] at hm ⊢
    obtain ⟨hpos, hn, hg⟩ := h.lent l hm
    exact ⟨hpos, Int.lt_of_lt_of_le hn hl.nextLease_le, hg⟩
  · unfold Ledger.ended at hm
    rw [ho.1] at hm
    obtain ⟨hn, hgone⟩ := h.ended l hm
    exact ⟨Int.lt_of_lt_of_le hn hl.nextLease_le, (hl.gone hgone hn).1⟩

theorem Holds.others (h : Holds held σ) (ho : lending.others σ τ) : Holds held τ := by
  refine ⟨h.toTracks.others ho, ?_, ?_⟩ <;> unfold Ledger.lent
  · unfold asked
    rw [ho.1]
    exact h.rest
  · rw [ho.1]
    exact h.held

/-- A lease that a call lends is one that the store has just granted. -/
theorem Tracks.lends (h : Tracks σ) {r : Outcome c.Answer} {now : Nat} {reached : Bool}
    (hyes : reached = true → τ.store = (σ.store.answer now c).2 ∧ ∀ a, r = .ok a → (σ.store.answer now c).1 = .ok a)
    (hno : reached = false → τ.store = σ.store ∧ ∀ a, r ≠ .ok a)
    (hl : Line.lent? ⟨now, c, σ.store, reached, r⟩ = some lease) :
    0 < lease ∧ lease < τ.store.nextLease ∧ Line.granted? ⟨now, c, σ.store, reached, r⟩ = some lease := by
  cases c with
  | leaseGrant ttl =>
    cases r with
    | error f => cases hl
    | ok g =>
      cases hl
      cases reached with
      | false => exact absurd rfl ((hno rfl).2 g)
      | true =>
        obtain ⟨hst, ha⟩ := hyes rfl
        have ha := ha g rfl
        obtain ⟨hid, hnext⟩ := Store.id_of_answer_grant ha
        have hpos := (Store.leads_expire h.sound now).1.nextLease_pos
        refine ⟨by omega, by rw [hst]; omega, ?_⟩
        simp only [Line.granted?, ha]
  | _ => cases hl

theorem Tracks.serve (h : Tracks σ) {r : Outcome c.Answer} (hs : Serves c σ r τ)
    (hr : ∀ l, c = .leaseRevoke l → l ∈ σ.lent) : Tracks τ := by
  have hleads := hs.leads h.sound
  obtain ⟨now, reached, he, hyes, hno⟩ := hs
  refine ⟨hleads.1, fun l hm => ?_, fun l hm => ?_⟩
  · unfold Ledger.lent at hm
    unfold granted
    rw [filterMap_snoc _ he] at hm ⊢
    rcases List.mem_append.1 hm with hm | hm
    · obtain ⟨hpos, hn, hg⟩ := h.lent l hm
      exact ⟨hpos, Int.lt_of_lt_of_le hn hleads.nextLease_le, List.mem_append_left _ hg⟩
    · obtain ⟨hpos, hn, hg⟩ := h.lends hyes hno (Option.mem_toList.1 hm)
      exact ⟨hpos, hn, List.mem_append_right _ (Option.mem_toList.2 hg)⟩
  · unfold Ledger.ended at hm
    rw [filterMap_snoc _ he] at hm
    rcases List.mem_append.1 hm with hm | hm
    · obtain ⟨hn, hgone⟩ := h.ended l hm
      exact ⟨Int.lt_of_lt_of_le hn hleads.nextLease_le, (hleads.gone hgone hn).1⟩
    · cases reached with
      | false => cases Option.mem_toList.1 hm
      | true =>
        cases c with
        | leaseRevoke lease =>
          cases Option.mem_toList.1 hm
          refine ⟨Int.lt_of_lt_of_le (h.lent l (hr l rfl)).2.1 hleads.nextLease_le, ?_⟩
          rw [(hyes rfl).1]
          exact Store.get?_leases_answer_leaseRevoke h.sound now l
        | _ => cases Option.mem_toList.1 hm

/-- A call that lends nothing and asks for no end. -/
theorem Holds.serve (h : Holds held σ) {r : Outcome c.Answer} (hs : Serves c σ r τ)
    (hr : ∀ l, c ≠ .leaseRevoke l) (hg : ∀ now s reached, Line.lent? ⟨now, c, s, reached, r⟩ = none) : Holds held τ := by
  have ht := h.toTracks.serve hs fun l hc => absurd hc (hr l)
  obtain ⟨now, reached, he, -, -⟩ := hs
  have hlent : τ.lent = σ.lent := by
    unfold Ledger.lent
    rw [filterMap_snoc _ he, hg, Option.toList_none, List.append_nil]
  refine ⟨ht, fun l hm => ?_, fun l hh => hlent ▸ h.held l hh⟩
  unfold asked
  rw [filterMap_snoc _ he]
  exact (h.rest l (hlent ▸ hm)).imp id (List.mem_append_left _)

theorem Holds.grant (h : Holds none σ) {ttl : Int} {g : LeaseAnswer} (hs : Serves (.leaseGrant ttl) σ (.ok g) τ) :
    Holds (some g.id) τ := by
  have ht := h.toTracks.serve hs nofun
  obtain ⟨now, reached, he, -, -⟩ := hs
  have hlent : τ.lent = σ.lent ++ [g.id] := filterMap_snoc _ he
  have hasked : τ.asked = σ.asked ++ [] := filterMap_snoc _ he
  refine ⟨ht, fun l hm => ?_, fun l hh => ?_⟩
  · rw [hlent] at hm
    rcases List.mem_append.1 hm with hm | hm
    · rw [hasked]
      exact .inr (List.mem_append_left _ ((h.rest l hm).resolve_left nofun))
    · exact .inl (congrArg some (List.mem_singleton.1 hm).symm)
  · cases hh
    rw [hlent]
    exact List.mem_append_right _ (List.mem_singleton.2 rfl)

theorem Holds.revoke (h : Holds held σ) (hl : lease ∈ σ.lent) (hheld : ∀ l, held = some l → l = lease)
    {r : Outcome Unit} (hs : Serves (.leaseRevoke lease) σ r τ) : Holds none τ ∧ lease ∈ τ.lent := by
  have ht := h.toTracks.serve hs fun l hc => by cases hc; exact hl
  obtain ⟨now, reached, he, -, -⟩ := hs
  have hlent : τ.lent = σ.lent ++ [] := filterMap_snoc _ he
  have hasked : τ.asked = σ.asked ++ [lease] := filterMap_snoc _ he
  rw [List.append_nil] at hlent
  refine ⟨⟨ht, fun l hm => .inr ?_, nofun⟩, hlent ▸ hl⟩
  rw [hlent] at hm
  rw [hasked]
  rcases h.rest l hm with hh | ha
  · exact List.mem_append_right _ (List.mem_singleton.2 (hheld l hh))
  · exact List.mem_append_left _ ha

/-! ## Takes -/

/-- The record that a call left at its revision is bound to the lease. -/
structure Line.Binds (key : Bytes) (h : Hold) (e : Line) : Prop where
  reached : e.reached = true
  revision : (e.found.answer e.now e.call).2.revision = h.revision
  record : ∃ y, (e.found.answer e.now e.call).2.current key = some y ∧ y.lease = h.lease ∧ y.modRevision = h.revision

/-- A call bound the key to the lease, and the store shows it. -/
structure Took (key : Bytes) (h : Hold) (σ : Ledger) : Prop where
  line : ∃ e ∈ σ.lines, e.Binds key h
  begun : h.revision ≤ σ.store.revision
  shown : h.Shown key σ.store (h.revision + 1)

theorem Took.others {key : Bytes} {h : Hold} (ht : Took key h σ) (hs : σ.store.Sound) (ho : lending.others σ τ) :
    Took key h τ := by
  have hl := ho.2 hs
  exact ⟨ho.1.symm ▸ ht.line, Int.le_trans ht.begun hl.revision_le,
    ht.shown.leads hl (Int.add_le_add_right ht.begun 1)⟩

theorem Tracks.take (h : Tracks σ) {r : LockRequest} {l : Lock} (hl : l.lease ≠ 0) {a : TxnAnswer}
    (ha : a.succeeded = true) (hs : Serves (.txn (r.txn l)) σ (.ok a) τ) :
    Took (Utf8.encode r.key) ⟨l.lease, a.revision⟩ τ := by
  have hsound := (hs.leads h.sound).1
  obtain ⟨now, reached, he, hyes, hno⟩ := hs
  have hreached : reached = true := by
    cases reached with
    | true => rfl
    | false => exact absurd rfl ((hno rfl).2 a)
  obtain ⟨hstore, hans⟩ := hyes hreached
  have hans := hans a rfl
  have htake := Store.answer_take h.sound now r hl
  have hbinds : Line.Binds (Utf8.encode r.key) ⟨l.lease, a.revision⟩
      ⟨now, .txn (r.txn l), σ.store, reached, .ok a⟩ := by
    rw [htake] at hans
    split at hans
    · split at hans
      · rename_i hfree hlive
        rw [if_pos hfree, if_pos hlive] at htake
        cases hans
        obtain ⟨y, hy, hlease, hrev, -⟩ := Store.current_take (σ.store.expire now) (Utf8.encode r.key) l
        refine ⟨hreached, ?_, y, ?_, hlease, hrev⟩
        · rw [htake]
          exact Store.revision_commit_put (Store.leads_expire h.sound now).1 _ _ _ []
        · rw [htake]
          exact hy
      · cases hans
    · cases hans
      cases ha
  obtain ⟨-, hrev, y, hy, hlease, hmod⟩ := id hbinds
  refine ⟨⟨_, he ▸ List.mem_append_right _ (List.mem_singleton.2 rfl), hbinds⟩, ?_, fun n hle hlt hf => ?_⟩
  · rw [hstore]
    exact Int.le_of_eq hrev.symm
  · have hn : n = τ.store.revision := by
      rw [hstore]
      simp only at hle hlt hrev
      omega
    rw [hn, hsound.asOf_revision, Store.get?_latest, hstore]
    exact ⟨y, hy, hlease, hmod⟩

/-! ## Rounds -/

section

variable {φ : Call → Type} (c : Client) (r : LockRequest)

theorem Holds.ensures_attempt (h : Holds held σ) {i : Call} {Q : Outcome i.Answer → Ledger → Prop}
    (hQ : ∀ {τ υ ω : Ledger} {o}, Holds held τ → Serves i τ o υ → lending.others υ ω → Q o ω) :
    (c.attempt i : Prog Call.Answer φ _).Ensures lending Q σ :=
  fun _ ho => ⟨trivial, fun _ _ hs _ ho' => hQ (h.others ho) hs ho'⟩

theorem Holds.ensures_revokeLease (h : Holds (some lease) σ) :
    (c.revokeLease lease : Action Call.Answer φ Unit).run.Ensures lending (fun _ => Holds none) σ := by
  show (c.policy.runWith (.leaseRevoke lease) c.policy.retries).Ensures lending (fun _ => Holds none) σ
  -- Before the first attempt the lease is held, and after each it is not.
  refine (Prog.Ensures.runWith
    (P := fun σ => ∃ held, Holds held σ ∧ lease ∈ σ.lent ∧ ∀ l, held = some l → l = lease)
    (Q := fun _ => Holds none) ?_ (fun h ho => h.others ho) (fun _ => trivial) ?_ _
    ⟨_, h, h.held _ rfl, fun _ hl => (Option.some.inj hl).symm⟩)
  · rintro σ τ ⟨held, h, hl, hheld⟩ ho
    refine ⟨held, h.others ho, ?_, hheld⟩
    unfold Ledger.lent
    rw [ho.1]
    exact hl
  · rintro σ o τ ⟨held, h, hl, hheld⟩ hs
    obtain ⟨hr, hl⟩ := h.revoke hl hheld hs
    exact ⟨hr, fun _ _ => ⟨none, hr, hl, nofun⟩⟩

/-- What a round leaves: nothing is held, but the lease of the lock if it is taken. -/
def Leaves (key : Bytes) : LockRound → Ledger → Prop
  | .taken l, σ => Holds (some l.lease) σ ∧ Took key ⟨l.lease, l.revision⟩ σ
  | _, σ => Holds none σ

theorem Holds.ensures_writeLock (h : Holds (some lease) σ) :
    (c.writeLock r lease : Prog Call.Answer φ LockRound).Ensures lending (Leaves (Utf8.encode r.key)) σ := by
  intro today
  let l : Lock := ⟨lease, r.ttl, today, 0⟩
  have hl : lease ≠ 0 := Int.ne_of_gt (h.lent lease (h.held lease rfl)).1
  have htxn : (c.attempt (.txn (r.txn l)) : Prog Call.Answer φ _).Ensures lending
      (fun o τ => Holds (some lease) τ ∧ ∀ a : TxnAnswer, o = .ok a → a.succeeded = true →
        Took (Utf8.encode r.key) ⟨lease, a.revision⟩ τ) σ := by
    refine h.ensures_attempt c fun {τ υ ω o} h hs ho => ?_
    have hkeep := h.serve hs nofun fun _ _ _ => rfl
    exact ⟨hkeep.others ho, fun a ha hsucc =>
      (h.toTracks.take (l := l) hl hsucc (ha ▸ hs)).others hkeep.sound ho⟩
  refine htxn.bind fun o τ h => ?_
  have hrevoke := h.1.ensures_revokeLease (φ := φ) c
  cases o with
  | error f =>
    refine hrevoke.bind fun x υ hυ => ?_
    cases x <;> exact fun _ ho => hυ.others ho
  | ok a =>
    simp only
    split
    · rename_i hs
      exact fun υ ho => ⟨h.1.others ho, (h.2 a rfl hs).others h.1.sound ho⟩
    · refine hrevoke.bind fun x υ hυ => ?_
      cases x <;> exact fun _ ho => hυ.others ho

theorem Holds.ensures_lockRound (h : Holds none σ) :
    (c.lockRound r : Prog Call.Answer φ LockRound).Ensures lending (Leaves (Utf8.encode r.key)) σ := by
  have hlook : (c.attempt (.range (.single (Utf8.encode r.key)) none) : Prog Call.Answer φ _).Ensures lending
      (fun _ => Holds none) σ :=
    h.ensures_attempt c fun h hs ho => (h.serve hs nofun fun _ _ _ => rfl).others ho
  refine hlook.bind fun o σ h => ?_
  cases o with
  | error f => exact fun _ ho => h.others ho
  | ok a =>
    simp only
    split
    · exact fun _ ho => h.others ho
    · have hgrant : (c.attempt (.leaseGrant r.ttl) : Prog Call.Answer φ _).Ensures lending
          (Action.Ends (fun g : LeaseAnswer => Holds (some g.id)) (Holds none)) σ := by
        refine h.ensures_attempt c fun {τ υ ω o} h hs ho => ?_
        cases o with
        | error f => exact (h.serve hs nofun fun _ _ _ => rfl).others ho
        | ok g => exact (h.grant hs).others ho
      refine hgrant.bind fun o τ h => ?_
      cases o with
      | error f => exact fun _ ho => Holds.others h ho
      | ok g => exact Holds.ensures_writeLock c r h

/-- Nothing is held in the end, but the lease of the lock. -/
def Ends (key : Bytes) : Outcome Lock → Ledger → Prop
  | .ok l, σ => Holds (some l.lease) σ ∧ Took key ⟨l.lease, l.revision⟩ σ
  | .error _, σ => Holds none σ

theorem Ends.others {key : Bytes} {x : Outcome Lock} (h : Ends key x σ) (ho : lending.others σ τ) : Ends key x τ := by
  cases x with
  | ok l => exact ⟨h.1.others ho, h.2.others h.1.sound ho⟩
  | error f => exact Holds.others h ho

theorem Holds.ensures_acquireLock (h : Holds none σ) :
    (c.acquireLock r : Action Call.Answer φ Lock).run.Ensures lending (Ends (Utf8.encode r.key)) σ := by
  intro now
  refine c.ensures_lockRounds (P := Holds none) (r.withDefaults c.config.lock) _ _ (fun h ho => h.others ho) id
    (fun h => (h.ensures_lockRound c _).mono fun x τ hx => ?_) _ h
  cases x with
  | failed f => exact ⟨hx, fun _ => hx⟩
  | _ => exact hx

end

/-! ## Nothing is left -/

/-- The lease is gone, and no key is bound to it. -/
structure Lacks (s : Store) (lease : Int) : Prop where
  gone : s.leases.get? lease = none
  free : ∀ k y, s.current k = some y → y.lease ≠ lease

/-- Of the leases that were granted none is left, but that of the lock. -/
structure Clear (key : Bytes) (x : Outcome Lock) (σ : Ledger) : Prop where
  failed : ∀ f, x = .error f → ∀ l ∈ σ.granted, Lacks σ.store l
  taken : ∀ lock, x = .ok lock → lock.lease ∈ σ.granted ∧ (∀ l ∈ σ.granted, l ≠ lock.lease → Lacks σ.store l) ∧
    ∃ e ∈ σ.lines, e.Binds key ⟨lock.lease, lock.revision⟩
  /-- As long as the revision can be read, that is what it shows. -/
  shown : ∀ lock, x = .ok lock → σ.store.floor ≤ lock.revision → ∃ y, (σ.store.asOf lock.revision).get? key = some y ∧
    y.lease = lock.lease ∧ y.modRevision = lock.revision

theorem Holds.lacks (h : Holds held σ) (hb : σ.store.BindsAll) (hs : σ.Settled) {l : Int} (hl : l ∈ σ.granted)
    (hne : held ≠ some l) : Lacks σ.store l := by
  have hlent := hs.grants l hl
  have hgone := (h.ended l (hs.ends l ((h.rest l hlent).resolve_left hne))).2
  refine ⟨hgone, fun k y hy he => ?_⟩
  obtain ⟨t, ht, -⟩ := hb k y hy (he.symm ▸ Int.ne_of_gt (h.lent l hlent).1)
  rw [he, hgone] at ht
  cases ht

/-- Whatever becomes of the calls, taking a lock leaves no lease behind. -/
theorem no_lease_left {φ : Call → Type} {b : Backend} (hb : b.Reached) (c : Client) (r : LockRequest)
    {x : Outcome Lock} {σ : Ledger} (h : Reached b (c.acquireLock r : Action Call.Answer φ Lock).run (.done x) σ)
    (hs : σ.Settled) : Clear (Utf8.encode r.key) x σ := by
  have hstart : Holds none ⟨b, []⟩ := ⟨⟨hb.sound, List.forall_mem_nil _, List.forall_mem_nil _⟩, List.forall_mem_nil _, nofun⟩
  have hends : Ends (Utf8.encode r.key) x σ := h.ensures (hstart.ensures_acquireLock c r) σ (lending.refl σ)
  have hbinds := (h.backend hb).bindsAll
  cases x with
  | error f => exact ⟨fun _ _ l hl => Holds.lacks hends hbinds hs hl nofun, nofun, nofun⟩
  | ok lock =>
    obtain ⟨hh, ht⟩ := hends
    refine ⟨nofun, fun _ hx => ?_, fun _ hx hf => ?_⟩
    · cases hx
      exact ⟨(hh.lent _ (hh.held _ rfl)).2.2, fun l hl hne => hh.lacks hbinds hs hl fun he =>
        hne (Option.some.inj he).symm, ht.line⟩
    · cases hx
      exact ht.shown _ (Int.le_refl _) (Int.lt_succ _) hf

/-- The record is written and that is not heard of, the lease is given back at the second try, and the next round takes
the lock. -/
def unheard : Prog Call.Answer (fun _ => Unit) (Outcome Lock) × Ledger :=
  let c : Client := .ofConfig Config.standard
  let failure := Failure.unavailable "leader lost"
  Prog.steps serve (List.map (fun fate => ⟨1000, ⟨0, 0⟩, fate⟩)
    (List.replicate 5 .answered ++ [.unheard failure, .lost failure] ++ List.replicate 8 .answered))
    (c.acquireLock ⟨"k", 1, 5000, 100, []⟩).run ⟨.ofMembers ["a"], []⟩

theorem no_lease_left_unheard :
    unheard.2.Settled ∧ unheard.2.granted = [1, 2] ∧
      Clear (Utf8.encode "k") (.ok ⟨2, 1, ⟨0, 0⟩, 4⟩) unheard.2 := by
  have hdone : unheard.1 = .done (.ok ⟨2, 1, ⟨0, 0⟩, 4⟩) := Prog.eq_done_of_result? (by decide +kernel)
  have hs : unheard.2.Settled := ⟨by decide +kernel, by decide +kernel⟩
  have h : Reached (.ofMembers ["a"]) ((Client.ofConfig Config.standard).acquireLock ⟨"k", 1, 5000, 100, []⟩).run
      unheard.1 unheard.2 := Reached.turns _ .start
  rw [hdone] at h
  exact ⟨hs, by decide +kernel, no_lease_left (.ofMembers ["a"]) _ _ h hs⟩

end Ledger

end Keyspace
