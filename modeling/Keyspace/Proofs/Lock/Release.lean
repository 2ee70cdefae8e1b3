import Keyspace.Proofs.Lock.Ledger
import Keyspace.Proofs.Run.Throughout

/-!
# The calls of a release

A release looks at the key until that is answered, and then asks for the end of the lease in the lock that it was
shown, again after each failure, until the answer is that the lease has ended. `Releases` says so of the lines
of its calls and of its result, and of every step of a release (`throughout_releaseLock`).
-/

namespace Keyspace

/-- The look at the key of a lock. -/
abbrev Call.look (key : String) : Call := .range (.single (Utf8.encode key)) none

namespace Ledger.Line

/-- What a look was answered: the record of the key, or that there is none. -/
def shown? : Line → Option (Option Record)
  | ⟨_, .range _ _, _, _, .ok a⟩ => some (a.records.find? (·.createRevision ≠ 0))
  | _ => none

/-- The lease of which the answer was that it has ended. -/
def freed? : Line → Option Int
  | ⟨_, .leaseRevoke lease, _, _, .ok _⟩ => some lease
  | _ => none

theorem call_of_asked? {e : Line} {lease : Int} (h : e.asked? = some lease) : e.call = .leaseRevoke lease := by
  obtain ⟨now, c, s, reached, o⟩ := e
  cases c with
  | leaseRevoke l =>
    cases h
    rfl
  | _ => cases h

theorem shown?_of_revoke {e : Line} {lease : Int} (h : e.call = .leaseRevoke lease) : e.shown? = none := by
  obtain ⟨now, c, s, reached, o⟩ := e
  cases h
  rfl

theorem shown?_of_asked? {e : Line} {lease : Int} (h : e.asked? = some lease) : e.shown? = none :=
  shown?_of_revoke (call_of_asked? h)

theorem asked?_of_freed? {e : Line} {lease : Int} (h : e.freed? = some lease) : e.asked? = some lease := by
  obtain ⟨now, c, s, reached, o⟩ := e
  cases c with
  | leaseRevoke l =>
    cases o with
    | ok a => exact h
    | error f => cases h
  | _ => cases o <;> cases h

end Ledger.Line

open Ledger (Line)

/-- A call has a line. -/
def Logs (c : Call) (ls : List Line) (r : Outcome c.Answer) (ls' : List Line) : Prop :=
  ∃ now found reached, ls' = ls ++ [⟨now, c, found, reached, r⟩]

namespace Release

/-! ## Stages -/

/-- Looks of which none was answered. -/
def Looking (key : String) (ls : List Line) : Prop := ∀ e ∈ ls, e.call = .look key ∧ e.shown? = none

/-- Looks of which the last was answered. -/
structure Shown (key : String) (o : Option Record) (ls : List Line) : Prop where
  looks : ∃ us e, ls = us ++ [e] ∧ Looking key us ∧ e.call = .look key ∧ e.shown? = some o

/-- After a look that showed a lock, the end of its lease was asked for and not heard of. -/
structure Asked (key : String) (y : Record) (l : Lock) (ls : List Line) : Prop where
  legible : Lock.ofBytes? y.value = some l
  revokes : ∃ us vs, ls = us ++ vs ∧ Shown key (some y) us ∧ ∀ e ∈ vs, e.asked? = some l.lease ∧ e.freed? = none

/-- The lines of a release, with its result once it has ended. -/
inductive Releases (key : String) : Option (Outcome Unit) → List Line → Prop
  | looking {ls : List Line} (h : Looking key ls) : Releases key none ls
  | unheard {ls : List Line} (f : Failure) (h : Looking key ls) : Releases key (some (.error f)) ls
  | absent {ls : List Line} (h : Shown key none ls) : Releases key (some (.error (.keyNotFound key))) ls
  | illegible {ls : List Line} {y : Record} (h : Shown key (some y) ls) (hy : Lock.ofBytes? y.value = none) :
    Releases key (some (.error .codec)) ls
  | asking {ls : List Line} {y : Record} {l : Lock} (h : Asked key y l ls) : Releases key none ls
  | refused {ls : List Line} {y : Record} {l : Lock} (f : Failure) (h : Asked key y l ls) :
    Releases key (some (.error f)) ls
  | freed {ls : List Line} {e : Line} {y : Record} {l : Lock} (h : Asked key y l ls) (he : e.freed? = some l.lease) :
    Releases key (some (.ok ())) (ls ++ [e])

variable {φ : Call → Type} {key : String} {y : Record} {l : Lock} {ls : List Line}

/-! ## Programs -/

/-! What the parts of a release leave: the look, the get that makes it, and the reading of the lock. -/

def Looked (key : String) : Option (Outcome RangeAnswer) → List Line → Prop
  | some (.ok a), ls => Shown key (a.records.find? (·.createRevision ≠ 0)) ls
  | _, ls => Looking key ls

def Got (key : String) : Option (Outcome (Option Entry)) → List Line → Prop
  | some (.ok e), ls => ∃ o, Shown key o ls ∧ e = o.map .ofRecord
  | _, ls => Looking key ls

def Read (key : String) : Option (Outcome Lock) → List Line → Prop
  | none, ls => Looking key ls
  | some (.ok l), ls => ∃ y l', Asked key y l' ls ∧ l'.lease = l.lease
  | some (.error f), ls => Releases key (some (.error f)) ls

theorem throughout_look (c : Client) (key : String) :
    (c.call (.look key) : Action Call.Answer φ RangeAnswer).run.Throughout Logs (Looked key) [] := by
  refine Prog.Throughout.runWith (i := .look key) (Q := Looked key) (P := Looking key) (fun h => h) ?_ ?_ _
    (List.forall_mem_nil _)
  · rintro ls a _ h ⟨now, found, reached, rfl⟩
    exact ⟨ls, _, rfl, h, rfl, rfl⟩
  · rintro ls f _ h ⟨now, found, reached, rfl⟩
    have hlooking : Looking key (ls ++ [⟨now, .look key, found, reached, .error f⟩]) :=
      List.forall_mem_append.2 ⟨h, List.forall_mem_singleton.2 ⟨rfl, rfl⟩⟩
    exact ⟨hlooking, hlooking⟩

theorem throughout_get (c : Client) (key : String) :
    (c.get key none : Action Call.Answer φ (Option Entry)).run.Throughout Logs (Got key) [] := by
  unfold Client.get
  rw [Action.run_bind]
  refine .bind ((throughout_look c key).mono fun o ls h => ?_)
  cases o with
  | none => exact h
  | some r =>
    cases r with
    | error f => exact h
    | ok a => exact ⟨_, h, rfl⟩

theorem throughout_readLock (c : Client) (key : String) :
    (c.readLock key : Action Call.Answer φ Lock).run.Throughout Logs (Read key) [] := by
  unfold Client.readLock
  rw [Action.run_bind]
  refine .bind ((throughout_get c key).mono fun o ls h => ?_)
  cases o with
  | none => exact h
  | some r =>
    cases r with
    | error f => exact .unheard f h
    | ok e =>
      obtain ⟨o, h, rfl⟩ := h
      cases o with
      | none => exact .absent h
      | some y =>
        simp only [Option.elim, Option.map]
        cases hb : Lock.ofBytes? (Entry.ofRecord y).value with
        | none => exact .illegible h hb
        | some l => exact ⟨y, l, ⟨hb, ls, [], (List.append_nil ls).symm, h, List.forall_mem_nil _⟩, rfl⟩

theorem throughout_revokeLease (c : Client) (h : Asked key y l ls) :
    (c.revokeLease l.lease : Action Call.Answer φ Unit).run.Throughout Logs (Releases key) ls := by
  refine Prog.Throughout.runWith (i := .leaseRevoke l.lease) (Q := Releases key) (P := Asked key y l) .asking ?_ ?_ _ h
  · rintro ls a _ h ⟨now, found, reached, rfl⟩
    exact .freed h rfl
  · -- A failure ends the release or is followed by the same revocation again, and its line is the same in both.
    rintro ls f _ ⟨hy, us, vs, rfl, hs, hvs⟩ ⟨now, found, reached, rfl⟩
    have hasked : Asked key y l (us ++ vs ++ [⟨now, .leaseRevoke l.lease, found, reached, .error f⟩]) :=
      ⟨hy, us, vs ++ [_], List.append_assoc .., hs,
        List.forall_mem_append.2 ⟨hvs, List.forall_mem_singleton.2 ⟨rfl, rfl⟩⟩⟩
    exact ⟨hasked, .refused f hasked⟩

theorem throughout_releaseLock (c : Client) (key : String) :
    (c.releaseLock key : Action Call.Answer φ Unit).run.Throughout Logs (Releases key) [] := by
  unfold Client.releaseLock
  rw [Action.run_bind]
  refine .bind ((throughout_readLock c key).mono fun o ls h => ?_)
  cases o with
  | none => exact .looking h
  | some r =>
    cases r with
    | error f => exact h
    | ok l =>
      obtain ⟨y, l', hasked, hl⟩ := h
      show (c.revokeLease l.lease).run.Throughout Logs (Releases key) ls
      rw [← hl]
      exact throughout_revokeLease c hasked

/-! ## What a release saw and did -/

/-- A look showed the record, and it can be read as the lock. -/
def Saw (ls : List Line) (y : Record) (l : Lock) : Prop :=
  (∃ e ∈ ls, e.shown? = some (some y)) ∧ Lock.ofBytes? y.value = some l

variable {o : Option Record} {x : Option (Outcome Unit)} {e : Line}

theorem Shown.spec (h : Shown key o ls) :
    (∀ e ∈ ls, e.call = .look key ∧ ∀ z, e.shown? = some z → z = o) ∧ ∃ e ∈ ls, e.shown? = some o := by
  obtain ⟨us, e, rfl, hus, hcall, he⟩ := h.looks
  refine ⟨List.forall_mem_append.2 ⟨fun d hd => ⟨(hus d hd).1, fun z hz => ?_⟩,
    List.forall_mem_singleton.2 ⟨hcall, fun z hz => ?_⟩⟩, e, List.mem_append_right _ List.mem_cons_self, he⟩
  · cases (hus d hd).2.symm.trans hz
  · exact Option.some.inj (hz.symm.trans he)

theorem Asked.spec (h : Asked key y l ls) :
    (∀ e ∈ ls, (e.call = .look key ∨ e.asked? = some l.lease) ∧ ∀ z, e.shown? = some z → z = some y) ∧ Saw ls y l := by
  obtain ⟨us, vs, rfl, hs, hvs⟩ := h.revokes
  obtain ⟨hus, e, he, hshown⟩ := hs.spec
  refine ⟨List.forall_mem_append.2 ⟨fun d hd => ⟨.inl (hus d hd).1, (hus d hd).2⟩,
    fun d hd => ⟨.inr (hvs d hd).1, fun z hz => ?_⟩⟩, ⟨e, List.mem_append_left _ he, hshown⟩, h.legible⟩
  cases (Line.shown?_of_asked? (hvs d hd).1).symm.trans hz

/-- What the lines of a release say, with its result once it has ended. -/
structure Told (key : String) (x : Option (Outcome Unit)) (ls : List Line) : Prop where
  /-- There are looks, and revocations of the lease of the lock that was seen. -/
  calls : ∀ e ∈ ls, e.call = .look key ∨ ∃ y l, Saw ls y l ∧ e.call = .leaseRevoke l.lease
  one : ∀ y l y' l', Saw ls y l → Saw ls y' l' → y' = y ∧ l' = l
  freed : x = some (.ok ()) → ∃ y l, Saw ls y l ∧ ∃ e ∈ ls, e.freed? = some l.lease
  absent : (∃ e ∈ ls, e.shown? = some none) → x = some (.error (.keyNotFound key)) ∧ ∀ e ∈ ls, e.call = .look key

theorem told_of_looks (hcalls : ∀ e ∈ ls, e.call = .look key) (hsaw : ∀ y l, ¬ Saw ls y l) (hx : x ≠ some (.ok ()))
    (habsent : (∃ e ∈ ls, e.shown? = some none) → x = some (.error (.keyNotFound key))) : Told key x ls where
  calls e he := .inl (hcalls e he)
  one y l _ _ h _ := absurd h (hsaw y l)
  freed h := absurd h hx
  absent h := ⟨habsent h, hcalls⟩

theorem told_of_saw (h : Saw ls y l) (hcalls : ∀ e ∈ ls, e.call = .look key ∨ e.asked? = some l.lease)
    (hshown : ∀ e ∈ ls, ∀ z, e.shown? = some z → z = some y)
    (hx : x = some (.ok ()) → ∃ e ∈ ls, e.freed? = some l.lease) : Told key x ls := by
  have hone : ∀ y' l', Saw ls y' l' → y' = y ∧ l' = l := by
    rintro y' l' ⟨⟨e, he, hz⟩, hl⟩
    cases hshown e he _ hz
    exact ⟨rfl, Option.some.inj (hl.symm.trans h.2)⟩
  refine ⟨fun e he => (hcalls e he).imp_right fun ha => ⟨y, l, h, Line.call_of_asked? ha⟩, fun y₁ l₁ y₂ l₂ h₁ h₂ => ?_,
    fun hok => ⟨y, l, h, hx hok⟩, ?_⟩
  · obtain ⟨rfl, rfl⟩ := hone y₁ l₁ h₁
    exact hone y₂ l₂ h₂
  · rintro ⟨e, he, hz⟩
    cases hshown e he _ hz

theorem Looking.told (h : Looking key ls) (hx : x ≠ some (.ok ())) : Told key x ls := by
  have hunseen : ∀ e ∈ ls, ∀ o, e.shown? ≠ some o := fun e he o ho => by cases (h e he).2.symm.trans ho
  refine told_of_looks (fun e he => (h e he).1) ?_ hx ?_
  · rintro y l ⟨⟨e, he, hz⟩, -⟩
    exact hunseen e he _ hz
  · rintro ⟨e, he, hz⟩
    exact absurd hz (hunseen e he _)

theorem Asked.told (h : Asked key y l ls) (hx : x ≠ some (.ok ())) : Told key x ls :=
  told_of_saw h.spec.2 (fun e he => (h.spec.1 e he).1) (fun e he => (h.spec.1 e he).2) fun hok => absurd hok hx

theorem Releases.told (h : Releases key x ls) : Told key x ls := by
  cases h with
  | looking h | unheard f h => exact h.told nofun
  | absent h =>
    refine told_of_looks (fun e he => (h.spec.1 e he).1) ?_ nofun fun _ => rfl
    rintro y l ⟨⟨e, he, hz⟩, -⟩
    cases (h.spec.1 e he).2 _ hz
  | @illegible _ y h hy =>
    refine told_of_looks (fun e he => (h.spec.1 e he).1) ?_ nofun ?_
    · rintro y l ⟨⟨e, he, hz⟩, hl⟩
      cases (h.spec.1 e he).2 _ hz
      cases hy.symm.trans hl
    · rintro ⟨e, he, hz⟩
      cases (h.spec.1 e he).2 _ hz
  | asking h | refused f h => exact h.told nofun
  | @freed ls e y l h he =>
    obtain ⟨hls, ⟨d, hd, hz⟩, hl⟩ := h.spec
    have hask := Line.asked?_of_freed? he
    refine told_of_saw ⟨⟨d, List.mem_append_left _ hd, hz⟩, hl⟩
      (List.forall_mem_append.2 ⟨fun e he => (hls e he).1, List.forall_mem_singleton.2 (.inr hask)⟩)
      (List.forall_mem_append.2 ⟨fun e he => (hls e he).2, List.forall_mem_singleton.2 fun z hz => ?_⟩)
      fun _ => ⟨e, List.mem_append_right _ List.mem_cons_self, he⟩
    cases (Line.shown?_of_asked? hask).symm.trans hz

end Release

end Keyspace
