import Keyspace.Proofs.Chunked.Snapshot

/-!
# Ways of reading, mixed

A reader is read by all its ways in turn. No byte is lost and none is given twice (`Mixed.Follows`), but a
chunk that is asked for while the buffer holds something is given before what the buffer holds.
-/

namespace Keyspace.Chunked.Mixed

variable {R : Int} {v : SortedMap Bytes Record} {payload : Bytes}

/-! ## Results -/

inductive Got
  /-- Of a read into a buffer of `n` bytes. -/
  | read (n : Nat) (b : Bytes)
  /-- Of asking for the next chunk while the reader's buffer held `held`. -/
  | chunk (held : Bytes) (c : Option Bytes)
  | rest (b : Bytes)
  deriving DecidableEq

namespace Got

def bytes : Got → Bytes
  | read _ b => b
  | chunk _ c => c.getD []
  | rest b => b

/-- What was passed over. -/
def passed : Got → Bytes
  | chunk held _ => held
  | _ => []

/-- Of a result that says that there are no more, what there was still when it was asked for. -/
def last? : Got → Option Bytes
  | read n b => if n ≠ 0 ∧ b = [] then some [] else none
  | chunk held none => some held
  | chunk _ (some _) => none
  | rest b => some b

/-- The result takes its bytes from `left`, and leaves `left'`. -/
structure Takes (left left' : Bytes) (g : Got) : Prop where
  perm : left.Perm (g.bytes ++ left')
  front : g.passed = [] → left = g.bytes ++ left'
  last : ∀ b, g.last? = some b → left = b

end Got

def handed (seen : List Got) : Bytes := seen.flatMap Got.bytes

theorem handed_snoc (seen : List Got) (g : Got) : handed (seen ++ [g]) = handed seen ++ g.bytes := by
  simp [handed]

/-- What was handed out and what is left make up the payload, in order if nothing was passed over. -/
structure Shares (payload : Bytes) (seen : List Got) (left : Bytes) : Prop where
  perm : (handed seen ++ left).Perm payload
  front : (∀ g ∈ seen, g.passed = []) → handed seen ++ left = payload

theorem Shares.nil (payload : Bytes) : Shares payload [] payload := ⟨.refl _, fun _ => rfl⟩

theorem Shares.take {seen : List Got} {left left' : Bytes} {g : Got} (h : Shares payload seen left)
    (hg : g.Takes left left') : Shares payload (seen ++ [g]) left' := by
  refine ⟨?_, fun hp => ?_⟩
  · rw [handed_snoc, List.append_assoc]
    exact (hg.perm.symm.append_left _).trans h.perm
  · rw [handed_snoc, List.append_assoc, ← hg.front (hp g (by simp))]
    exact h.front fun x hx => hp x (List.mem_append_left _ hx)

/-! ## Ways of asking -/

inductive Ask
  | read (n : Nat)
  | chunk
  | rest

/-- The program of a call: its result, and the reader if that is there still. -/
def Ask.prog (r : Reader Flight) : Ask → Prog Call.Answer Flight (Outcome Got × Option (Reader Flight))
  | read n => do
    let (x, r') ← r.read n
    return (x.map (.read n), some r')
  | chunk => do
    let (x, r') ← r.nextChunk
    return (x.map (.chunk r.buffer), some r')
  | rest => do
    let x ← r.rest
    return (x.map .rest, none)

/-- A call that found `left` gives a part of it, and leaves the reader with the rest; one that fails gives
nothing. -/
def Gives (R : Int) (v : SortedMap Bytes Record) (left : Bytes) (x : Option Got) (r : Option (Reader Flight)) :
    Prop :=
  ∃ left', (∀ r', r = some r' → r'.Reads R v ∧ r'.remaining v = left') ∧
    match x with
    | none => left' = left
    | some g => g.Takes left left'

theorem toOption_map {α β : Type} (f : α → β) (x : Outcome α) : (x.map f).toOption = x.toOption.map f := by
  cases x <;> rfl

theorem gives_read {n : Nat} {r r' : Reader Flight} {x : Option Bytes} (hr : r'.Reads R v)
    (h : r.Yields v n x r') : Gives R v (r.remaining v) (x.map (.read n)) (some r') := by
  refine ⟨r'.remaining v, fun _ h => by cases h; exact ⟨hr, rfl⟩, ?_⟩
  cases x with
  | none => exact h
  | some b =>
    obtain ⟨hrem, _, hnil⟩ := h
    refine ⟨.of_eq hrem, fun _ => hrem, fun c hc => ?_⟩
    obtain ⟨⟨hn, hb⟩, he⟩ := Option.ite_none_right_eq_some.1 hc
    cases he
    exact (hnil hb).resolve_left hn

theorem gives_chunk {r r' : Reader Flight} {x : Outcome (Option Bytes)} (hr : r.Reads R v)
    (h : r.Took R v (x, r')) : Gives R v (r.remaining v) (x.toOption.map (.chunk r.buffer)) (some r') := by
  refine ⟨r'.remaining v, fun _ he => ?_, ?_⟩
  · cases he
    match x with
    | .ok none => exact ⟨h.1 ▸ hr, rfl⟩
    | .ok (some b) => exact ⟨h.1, rfl⟩
    | .error f => exact ⟨h.1, rfl⟩
  · match x with
    | .ok none =>
      obtain ⟨rfl, _, hnil⟩ := h
      refine ⟨.refl _, fun _ => rfl, fun b hb => ?_⟩
      cases hb
      rw [Reader.remaining, hnil, List.append_nil]
    | .ok (some b) =>
      obtain ⟨_, hbuf, _, hbe⟩ := h
      -- The chunk comes from behind the buffer, which is left as it was.
      refine ⟨?_, fun hp => ?_, fun c hc => by cases hc⟩
      · rw [Reader.remaining, Reader.remaining, hbuf, hbe]
        exact List.perm_append_comm_assoc ..
      · have hp : r.buffer = [] := hp
        rw [Reader.remaining, Reader.remaining, hbuf, hbe, hp]
        rfl
    | .error f =>
      obtain ⟨_, hbuf, _, hbe⟩ := h
      show r'.remaining v = r.remaining v
      rw [Reader.remaining, Reader.remaining, hbuf, hbe]

section
variable (hv : ∀ k r, v.get? k = some r → r.createRevision ≠ 0)
include hv

theorem Ask.ensures {r : Reader Flight} (h : r.Reads R v) (a : Ask) :
    (a.prog r).Ensures (reading R v) (fun x _ => Gives R v (r.remaining v) x.1.toOption x.2) () := by
  cases a with
  | read n =>
    exact (Reader.ensures_read hv n h).bind fun x _ hx _ _ => (toOption_map _ x.1) ▸ gives_read hx.1 hx.2
  | chunk =>
    exact (Reader.ensures_nextChunk hv h).bind fun x _ hx _ _ => (toOption_map _ x.1) ▸ gives_chunk h hx
  | rest =>
    refine (Reader.ensures_rest hv h).bind fun x _ hx _ _ => ?_
    cases x with
    | error f => exact ⟨r.remaining v, fun _ h => (by cases h), rfl⟩
    | ok b =>
      cases hx b rfl
      have he : r.remaining v = r.remaining v ++ [] := (List.append_nil _).symm
      exact ⟨[], fun _ h => (by cases h), .of_eq he, fun _ => he, fun c hc => Option.some.inj hc⟩

end

/-! ## Runs -/

inductive Job
  | idle (r : Reader Flight)
  | busy (p : Prog Call.Answer Flight (Outcome Got × Option (Reader Flight)))
  | ended

structure Desk where
  backend : Backend
  job : Job

inductive Event
  /-- Something else moves the backend. -/
  | other (now : Nat) (m : Move)
  | ask (a : Ask)
  | poll (n now : Nat) (today : Instant) (plan : List (List (Nat × Move) × Option Fate))
  /-- The call under way makes a step. -/
  | turn (t : Turn)

/-- What a poll into a buffer of `n` bytes results in, if it does. -/
def polled? (n : Nat) : Reader.Poll → Option (Outcome Got)
  | .ready b => some (.ok (.read n b))
  | .pending => none
  | .failed f => some (.error f)

/-- Events that do not fit the job do nothing. -/
def Desk.next (d : Desk) : Event → Desk × Option (Outcome Got)
  | .other now m => (⟨d.backend.move now m, d.job⟩, none)
  | .ask a =>
    match d.job with
    | .idle r => (⟨d.backend, .busy (a.prog r)⟩, none)
    | _ => (d, none)
  | .poll n now today plan =>
    match d.job with
    | .idle r =>
      let (x, r', w) := Reader.poll Arena.env n (r.left + 1) r ⟨d.backend, now, today, plan⟩
      (⟨w.backend, .idle r'⟩, polled? n x)
    | _ => (d, none)
  | .turn t =>
    match d.job with
    | .busy p =>
      match p.step (fun c b => b.serve t c) t d.backend with
      | (.done (x, r), b) => (⟨b, r.elim .ended .idle⟩, some x)
      | (p, b) => (⟨b, .busy p⟩, none)
    | _ => (d, none)

/-- A run, with the results of all its calls. -/
def Desk.run (d : Desk) (results : List (Outcome Got)) : List Event → Desk × List (Outcome Got)
  | [] => (d, results)
  | e :: es => (d.next e).1.run (results ++ (d.next e).2.toList) es

/-- What the calls gave that did not fail. -/
def gotten (results : List (Outcome Got)) : List Got := results.filterMap (·.toOption)

theorem gotten_append_toList (results : List (Outcome Got)) (x : Option (Outcome Got)) :
    gotten (results ++ x.toList) = gotten results ++ (x.bind Except.toOption).toList := by
  rw [gotten, List.filterMap_append]
  match x with
  | none => rfl
  | some (.ok g) => rfl
  | some (.error f) => rfl

theorem polled?_bind (n : Nat) (x : Reader.Poll) :
    (polled? n x).bind Except.toOption = x.toOption.map (.read n) := by
  cases x <;> rfl

def Job.Goes (R : Int) (v : SortedMap Bytes Record) (left : Bytes) : Job → Prop
  | .idle r => r.Reads R v ∧ r.remaining v = left
  | .busy p => p.Ensures (reading R v) (fun x _ => Gives R v left x.1.toOption x.2) ()
  | .ended => True

structure Follows (R : Int) (v : SortedMap Bytes Record) (payload : Bytes) (d : Desk) (seen : List Got) :
    Prop where
  holds : Holds R v d.backend
  goes : ∃ left, Shares payload seen left ∧ d.job.Goes R v left
  ends : ∀ before g after b, seen = before ++ g :: after → g.last? = some b → Shares payload before b

namespace Follows

variable {d : Desk} {seen : List Got}

theorem go (h : Follows R v payload d seen) {d' : Desk} (hh : Holds R v d'.backend)
    (hg : ∀ left, d.job.Goes R v left → d'.job.Goes R v left) : Follows R v payload d' seen := by
  obtain ⟨left, hs, hj⟩ := h.goes
  exact ⟨hh, ⟨left, hs, hg left hj⟩, h.ends⟩

theorem give (h : Follows R v payload d seen) {left : Bytes} {b : Backend} {x : Option Got}
    {r : Option (Reader Flight)} (hs : Shares payload seen left) (hh : Holds R v b)
    (hx : Gives R v left x r) :
    Follows R v payload ⟨b, r.elim .ended .idle⟩ (seen ++ x.toList) := by
  obtain ⟨left', hr, hg⟩ := hx
  have hj : (r.elim Job.ended Job.idle).Goes R v left' := by
    cases r with
    | none => trivial
    | some r => exact hr r rfl
  cases x with
  | none =>
    cases hg
    rw [Option.toList_none, List.append_nil]
    exact ⟨hh, ⟨_, hs, hj⟩, h.ends⟩
  | some g =>
    refine ⟨hh, ⟨left', hs.take hg, hj⟩, fun before y after c he hc => ?_⟩
    rcases List.eq_nil_or_concat after with rfl | ⟨after, z, rfl⟩
    · obtain ⟨rfl, hy⟩ := List.append_inj' he rfl
      cases hy
      exact hg.last c hc ▸ hs
    · have he' : seen ++ [g] = (before ++ y :: after) ++ [z] := by simpa using he
      exact h.ends before y after c (List.append_inj' he' rfl).1 hc

variable (hv : ∀ k r, v.get? k = some r → r.createRevision ≠ 0)
include hv

theorem next (h : Follows R v payload d seen) (e : Event) :
    Follows R v payload (d.next e).1 (seen ++ ((d.next e).2.bind Except.toOption).toList) := by
  obtain ⟨b, job⟩ := d
  have hb := h.holds
  have stay : Follows R v payload ⟨b, job⟩ (seen ++ []) := by rwa [List.append_nil]
  cases e with
  | other now m =>
    simp only [Desk.next, Option.bind_none, Option.toList_none, List.append_nil]
    exact h.go (hb.move now m) fun _ hg => hg
  | ask a =>
    cases job with
    | idle r =>
      simp only [Desk.next, Option.bind_none, Option.toList_none, List.append_nil]
      exact h.go hb fun left hg => hg.2 ▸ a.ensures hv hg.1
    | _ => exact stay
  | poll n now today plan =>
    cases job with
    | idle r =>
      obtain ⟨left, hs, hr, rfl⟩ := h.goes
      obtain ⟨hr', hh, hy⟩ := Reader.poll_spec hv Arena.hearsIn n (r.left + 1) (w := ⟨b, now, today, plan⟩) hr
        (Nat.lt_succ_self _) hb
      simp only [Desk.next, polled?_bind]
      exact h.give hs hh (gives_read hr' hy)
    | _ => exact stay
  | turn t =>
    cases job with
    | busy p =>
      obtain ⟨left, hs, hg⟩ := h.goes
      have hp : (p.step (fun c b => b.serve t c) t b).1.Ensures _ _ () :=
        hg.step_unit t b fun c => Backend.hears_serve hb.1 hb.2 t c
      have hh : Holds R v (p.step (fun c b => b.serve t c) t b).2 :=
        Prog.step_inv hb (fun c => hb.serve t c) t p
      simp only [Desk.next]
      split
      · rename_i x r b' hx
        rw [hx] at hp hh
        exact h.give hs hh (hp () trivial)
      · rename_i p' b' _ hx
        rw [hx] at hp hh
        rw [Option.bind_none, Option.toList_none, List.append_nil]
        exact ⟨hh, ⟨left, hs, hp⟩, h.ends⟩
    | _ => exact stay

theorem run (events : List Event) : ∀ {d : Desk} {results : List (Outcome Got)},
    Follows R v payload d (gotten results) →
      Follows R v payload (d.run results events).1 (gotten (d.run results events).2) := by
  induction events with
  | nil => exact fun h => h
  | cons e events ih => exact fun h => ih (gotten_append_toList .. ▸ h.next hv e)

end Follows

/-! ## A value of two chunks -/

def twoChunks : Backend :=
  (Backend.ofMembers ["a"]).moves
    [(0, .call (.put (Utf8.encode (chunkKey "k" 1 0)) [97, 98] none)),
      (0, .call (.put (Utf8.encode (chunkKey "k" 1 1)) [99, 100] none)),
      (0, .call (.put (Utf8.encode (infoKey "k")) (Info.toBytes ⟨4, 2, 1⟩) none))]

def twoChunksReader : Reader Flight := ⟨.ofConfig default, "k", ⟨⟨4, 2, 1⟩, 4⟩, 0, [], none⟩

theorem twoChunks_reached : twoChunks.Reached :=
  Backend.moves_inv (fun now m h => .move h now m) _ (.ofMembers ["a"])

theorem twoChunksReader_opened : Opened twoChunks.store "k" [97, 98, 99, 100] twoChunksReader :=
  ⟨rfl, by decide, by decide +kernel, by decide +kernel,
    ⟨⟨Utf8.encode (infoKey "k"), Info.toBytes ⟨4, 2, 1⟩, 4, 4, 1, 0⟩, by decide +kernel,
      Info.ofBytes?_toBytes (by unfold Info.Fits; decide)⟩, by decide +kernel, rfl, rfl, rfl⟩

/-! ## What mixed reading gives -/

/-- Whatever others do, whatever becomes of its calls and whichever way it is asked at each time, a
reader gives every byte of the value that it was opened on at most once, and all of them by the time it
says that there are no more; it gives them in order if the next chunk was asked for only while the buffer
was empty. -/
theorem mixed_reading {b : Backend} (hb : b.Reached) {key : String} {r : Reader Flight}
    (h : Opened b.store key payload r) (events : List Event) :
    let seen := gotten (Desk.run ⟨b, .idle r⟩ [] events).2
    (∃ left, (handed seen ++ left).Perm payload) ∧
      ((∀ g ∈ seen, g.passed = []) → handed seen <+: payload) ∧
      ∀ before g after last, seen = before ++ g :: after → g.last? = some last →
        (handed before ++ last).Perm payload ∧
          ((∀ x ∈ before, x.passed = []) → handed before ++ last = payload) := by
  have hstart : Follows r.pin.revision (b.store.asOf r.pin.revision) payload ⟨b, .idle r⟩ (gotten []) :=
    ⟨⟨hb.sound, h.pos, h.le, fun _ => rfl⟩, ⟨payload, .nil payload, h.reads⟩,
      fun before g after _ he => absurd (congrArg List.length he) (by simp [gotten])⟩
  have hf := hstart.run (fun _ _ => hb.sound.dated.created_of_asOf) events
  obtain ⟨left, hs, _⟩ := hf.goes
  refine ⟨⟨left, hs.perm⟩, fun hp => ⟨left, hs.front hp⟩, fun before g after last he hl => ?_⟩
  have hlast := hf.ends before g after last he hl
  exact ⟨hlast.perm, hlast.front⟩

theorem mixed_reading_two_chunks :
    let at0 : Event := .turn ⟨0, ⟨0, 0⟩, .answered⟩
    let seen := gotten (Desk.run ⟨twoChunks, .idle twoChunksReader⟩ []
      [.ask .chunk, at0, .ask (.read 1), at0, .ask (.read 4), at0]).2
    twoChunks.Reached ∧ Opened twoChunks.store "k" [97, 98, 99, 100] twoChunksReader ∧
      (∀ g ∈ seen, g.passed = []) ∧ handed seen <+: [97, 98, 99, 100] := by
  intro at0 seen
  have hp : ∀ g ∈ seen, g.passed = [] := by decide +kernel
  exact ⟨twoChunks_reached, twoChunksReader_opened, hp,
    (mixed_reading twoChunks_reached twoChunksReader_opened _).2.1 hp⟩

/-- One byte of the first chunk is read, and the second chunk comes before the other. -/
theorem chunk_overtakes_buffer :
    let at0 : Event := .turn ⟨0, ⟨0, 0⟩, .answered⟩
    let seen := gotten (Desk.run ⟨twoChunks, .idle twoChunksReader⟩ []
      [.ask (.read 1), at0, .ask .chunk, at0, .ask (.read 4), at0]).2
    twoChunks.Reached ∧ Opened twoChunks.store "k" [97, 98, 99, 100] twoChunksReader ∧
      handed seen = [97, 99, 100, 98] ∧ ¬ handed seen <+: [97, 98, 99, 100] :=
  ⟨twoChunks_reached, twoChunksReader_opened, by decide +kernel, by decide +kernel⟩

end Keyspace.Chunked.Mixed
