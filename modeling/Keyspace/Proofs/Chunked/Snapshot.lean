import Keyspace.Proofs.Chunked.Reading

/-!
# Readers are snapshots

A session is an open reader beside whatever others do to the backend: it reads in either way, reads to
the end, or feeds the reader to a put. What it has seen is at all times the beginning of what the store
held at the revision that the reader is pinned to (`Session.Follows`).
-/

namespace Keyspace.Chunked

variable {R : Int} {v : SortedMap Bytes Record}

/-! ## Open readers -/

/-- The reader as it is opened at a revision at which the value `payload` is there whole. -/
structure Opened {φ : Call → Type} (s : Store) (key : String) (payload : Bytes) (r : Reader φ) : Prop where
  keyed : r.key = key
  pos : 0 < r.pin.revision
  kept : s.floor ≤ r.pin.revision
  le : r.pin.revision ≤ s.revision
  info : ∃ record, (s.asOf r.pin.revision).get? (Utf8.encode (infoKey key)) = some record ∧
    Info.ofBytes? record.value = some r.pin.info
  whole : assemble (s.asOf r.pin.revision) key r.pin.info.version r.pin.info.count.toNat = some payload
  fresh : r.next = 0 ∧ r.buffer = [] ∧ r.pending = none

theorem Opened.reads {φ : Call → Type} {s : Store} {key : String} {payload : Bytes} {r : Reader φ}
    (h : Opened s key payload r) : r.Reads r.pin.revision (s.asOf r.pin.revision) ∧
      r.remaining (s.asOf r.pin.revision) = payload := by
  obtain ⟨hn, hb, hp⟩ := h.fresh
  refine ⟨⟨rfl, fun p hq => by rw [hp] at hq; cases hq⟩, ?_⟩
  have hl : r.left = r.pin.info.count.toNat := by rw [Reader.left, hn, Int.sub_zero]
  rw [Reader.remaining_of_empty hb, Reader.beyond, hl, hn, h.keyed]
  exact chunksFrom_of_assemble h.whole

/-- Opening reads the info record, and the reader is pinned to the revision of that read. -/
theorem opened_of_answer {φ : Call → Type} {b : Backend} (hb : b.store.Sound) {now : Nat} {key : String}
    {a : RangeAnswer} (ha : (b.answer now (.range (.single (Utf8.encode (infoKey key))) none)).1 = .ok a)
    {record : Record} {records : List Record} (hr : a.records = record :: records) {info : Info}
    (hi : Info.ofBytes? record.value = some info) {payload : Bytes} (c : Client) :
    let s := (b.move now (.call (.range (.single (Utf8.encode (infoKey key))) none))).store
    assemble s.latest key info.version info.count.toNat = some payload →
      Opened (φ := φ) s key payload ⟨c, key, ⟨info, a.revision⟩, 0, [], none⟩ := by
  intro s hw
  obtain ⟨hrev, hrec⟩ := Backend.answer_range_single hb ha
  have hs : s.Sound := (Backend.leads_move hb now _).1
  have hlatest : s.asOf a.revision = s.latest := by
    rw [hrev]
    exact hs.asOf_revision
  have hcur : s.current (Utf8.encode (infoKey key)) = some record := by
    rw [hrec] at hr
    cases hc : s.current (Utf8.encode (infoKey key)) with
    | none => rw [hc] at hr; cases hr
    | some x => rw [hc] at hr; cases hr; rfl
  refine ⟨rfl, hrev ▸ hs.revision_pos, hrev ▸ hs.floor_le, Int.le_of_eq hrev, ⟨record, ?_, hi⟩, ?_, rfl, rfl, rfl⟩
  · rw [hlatest, Store.get?_latest, hcur]
  · rw [hlatest]
    exact hw

/-! ## Feeding a put -/

/-- The setting of a put that writes the pieces of `value`. -/
def feeding (R : Int) (v : SortedMap Bytes Record) (key : String) (chunkSize size : Nat) (value : Bytes) :
    Setting Unit where
  may _ c := ∀ k b lease, c = .put k b lease → ∃ (version : Int) (i : Nat),
    k = Utf8.encode (chunkKey key version i) ∧ i < chunkCount size chunkSize ∧ b = piece chunkSize value i
  serves c _ r _ := Hears R v c r
  others _ _ := True
  refl _ := trivial
  trans _ _ := trivial

section
variable {φ : Call → Type} {c : Client} {key : String} {size : Nat}

theorem ensures_call_feeding {value : Bytes} {i : Call}
    (h : (feeding R v key c.config.chunkSize size value).may () i) :
    (c.call i : Action Call.Answer φ i.Answer).run.Ensures
      (feeding R v key c.config.chunkSize size value) (fun _ _ => True) () :=
  Prog.Ensures.runWith (P := fun _ => True) (Q := fun _ _ => True) (fun _ _ => trivial) (fun _ _ => trivial)
    (fun _ => h) (fun _ _ => ⟨trivial, fun _ _ => trivial⟩) c.policy.retries trivial

variable (hv : ∀ k r, v.get? k = some r → r.createRevision ≠ 0)
include hv

theorem ensures_writeChunks_feeding (hc : 0 < c.config.chunkSize) (content : Bytes) (version : Int) :
    ∀ (left index : Nat) {s : Source φ}, s.Stands R v content size c.config.chunkSize index left →
      (writeChunks c key version size left index s).run.Ensures
        (feeding R v key c.config.chunkSize size (content.take size))
        (fun x _ => x = .ok () → size ≤ content.length) () := by
  intro left
  induction left with
  | zero => exact fun index s h _ _ _ => h.enough_of_done hc
  | succ left ih =>
    intro index s h
    have hcount := h.count
    refine Action.ensures_bind (Q := fun x _ => x.1 = piece c.config.chunkSize (content.take size) index ∧
      x.2.Stands R v content size c.config.chunkSize (index + 1) left) (fun _ _ h => by cases h) ?_ ?_
    · refine ((h.ensures_take hv).pinned (P := fun _ => True) (fun _ _ => trivial)
        (fun _ hl => ⟨fun k b lease he => ?_, fun r _ hr => ⟨hr, trivial⟩⟩) trivial).mono ?_
      · subst he
        exact hl.elim
      · intro x _ hx
        cases x with
        | error f => exact fun h => by cases h
        | ok x => exact hx.2 x.1 x.2 rfl
    · rintro ⟨b, s'⟩ _ ⟨hpiece, hs'⟩
      refine Action.ensures_seq (fun _ _ h => by cases h)
        (ensures_call_feeding (i := .put (Utf8.encode (chunkKey key version index)) b none) ?_)
        fun _ _ => ih (index + 1) hs'
      intro k b' lease he
      cases he
      exact ⟨version, index, rfl, by omega, hpiece⟩

/-- A put that is fed writes the pieces of what the source has, and ends well only if that is enough. -/
theorem ensures_put_feeding (hc : 0 < c.config.chunkSize) {s : Source φ} (hs : s.Reads R v) :
    (put c key size s).run.Ensures (feeding R v key c.config.chunkSize size ((s.content v).take size))
      (fun x _ => ∀ info, x = .ok info → info.size = (size : Int) ∧ size ≤ (s.content v).length) () := by
  have hother : ∀ {i : Call}, (∀ k b lease, i ≠ .put k b lease) →
      (feeding R v key c.config.chunkSize size ((s.content v).take size)).may () i :=
    fun h k b lease he => absurd he (h k b lease)
  refine Action.ensures_seq (fun _ _ info h => by cases h) ?_ fun p _ => ?_
  · refine Action.ensures_seq (fun _ _ => trivial)
      (ensures_call_feeding (hother fun _ _ _ h => by cases h)) fun a _ => ?_
    split
    · exact fun _ _ => trivial
    · split <;> exact fun _ _ => trivial
  refine Action.ensures_seq (fun _ _ info h => by cases h) ?_ fun _ _ => ?_
  · exact Action.ensures_seq (fun _ _ => trivial)
      (ensures_call_feeding (hother fun _ _ _ h => by cases h)) fun _ _ => fun _ _ => trivial
  refine Action.ensures_bind (Q := fun _ _ => size ≤ (s.content v).length) (fun h _ => h) ?_
    fun _ _ hlen => ?_
  · apply (ensures_writeChunks_feeding hv hc (s.content v) _ _ 0 (hs.stands size _)).mono
    intro x _ hx
    cases x with
    | error f => exact fun info h => by cases h
    | ok a => exact hx rfl
  refine Action.ensures_seq (fun _ _ info h => by cases h)
    (ensures_call_feeding (hother fun _ _ _ h => by cases h)) fun a _ => ?_
  split
  · exact fun _ _ info h => by cases h
  · intro _ _ info h
    cases h
    exact ⟨rfl, hlen⟩

end

/-! ## Sessions -/

abbrev Flight (_ : Call) : Type := Unit

/-- Where calls that are polled meet the backend. -/
structure Arena where
  backend : Backend
  now : Nat
  today : Instant
  /-- For each poll, what others do before it, and what becomes of the call if it is answered. -/
  plan : List (List (Nat × Move) × Option Fate)

def Arena.poll (i : Call) (a : Arena) : (Unit ⊕ Outcome i.Answer) × Arena :=
  match a.plan with
  | [] => (.inl (), a)
  | (moves, none) :: plan => (.inl (), { a with backend := a.backend.moves moves, plan })
  | (moves, some fate) :: plan =>
    let (r, b) := (a.backend.moves moves).serve ⟨a.now, a.today, fate⟩ i
    (.inr r, { a with backend := b, plan })

def Arena.env : Env Call.Answer Flight Arena where
  now a := a.now
  setNow n a := { a with now := n }
  today a := a.today
  start _ _ a := ((), a)
  poll i _ a := a.poll i
  wake _ _ := none

inductive Job
  | idle (r : Reader Flight)
  | read (n : Nat) (p : Prog Call.Answer Flight (Outcome Bytes × Reader Flight))
  | rest (p : Prog Call.Answer Flight (Outcome Bytes))
  | feed (c : Client) (size : Nat) (p : Prog Call.Answer Flight (Outcome Info))
  | ended

structure Session where
  backend : Backend
  job : Job

inductive Seen
  /-- Of a read into a buffer of `n` bytes. -/
  | read (n : Nat) (b : Bytes)
  | rest (b : Bytes)
  /-- A put of `size` bytes that was fed ended well. -/
  | fed (size : Nat) (info : Info)

def Seen.bytes : Seen → Bytes
  | read _ b => b
  | rest b => b
  | fed .. => []

def given (seen : List Seen) : Bytes := seen.flatMap Seen.bytes

inductive Session.Event
  | other (now : Nat) (m : Move)
  | read (n : Nat)
  /-- A read that does not wait. -/
  | poll (n now : Nat) (today : Instant) (plan : List (List (Nat × Move) × Option Fate))
  | readToEnd
  /-- A put at the reader's key is given the reader as its source. -/
  | feed (c : Client) (size : Nat)
  /-- The program under way makes a step. -/
  | turn (t : Turn)

namespace Session

/-- Events that do not fit the job do nothing. -/
def next (s : Session) (key : String) : Event → Session × Option Seen
  | .other now m => (⟨s.backend.move now m, s.job⟩, none)
  | .read n =>
    match s.job with
    | .idle r => (⟨s.backend, .read n (r.read n)⟩, none)
    | _ => (s, none)
  | .poll n now today plan =>
    match s.job with
    | .idle r =>
      let (x, r', a) := Reader.poll Arena.env n (r.left + 1) r ⟨s.backend, now, today, plan⟩
      (⟨a.backend, .idle r'⟩, x.toOption.map (.read n))
    | _ => (s, none)
  | .readToEnd =>
    match s.job with
    | .idle r => (⟨s.backend, .rest r.rest⟩, none)
    | _ => (s, none)
  | .feed c size =>
    match s.job with
    | .idle r =>
      if 0 < c.config.chunkSize then (⟨s.backend, .feed c size (put c key size (.reader r)).run⟩, none)
      else (s, none)
    | _ => (s, none)
  | .turn t =>
    match s.job with
    | .read n p =>
      match p.step (fun c b => b.serve t c) t s.backend with
      | (.done (x, r), b) => (⟨b, .idle r⟩, x.toOption.map (.read n))
      | (p, b) => (⟨b, .read n p⟩, none)
    | .rest p =>
      match p.step (fun c b => b.serve t c) t s.backend with
      | (.done x, b) => (⟨b, .ended⟩, x.toOption.map .rest)
      | (p, b) => (⟨b, .rest p⟩, none)
    | .feed c size p =>
      match p.step (fun c b => b.serve t c) t s.backend with
      | (.done x, b) => (⟨b, .ended⟩, x.toOption.map (.fed size))
      | (p, b) => (⟨b, .feed c size p⟩, none)
    | _ => (s, none)

/-- A run from a session, with what it has seen. -/
def run (key : String) (s : Session) (seen : List Seen) : List Event → Session × List Seen
  | [] => (s, seen)
  | e :: es => run key (s.next key e).1 (seen ++ (s.next key e).2.toList) es

end Session

/-! ## What sessions have seen -/

def Holds (R : Int) (v : SortedMap Bytes Record) (b : Backend) : Prop :=
  b.store.Sound ∧ b.store.Pinned R v

theorem Holds.move {b : Backend} (h : Holds R v b) (now : Nat) (m : Move) : Holds R v (b.move now m) := by
  have hl := Backend.leads_move h.1 now m
  exact ⟨hl.1, h.2.leads hl⟩

theorem Holds.serve {b : Backend} (h : Holds R v b) (t : Turn) (c : Call) : Holds R v (b.serve t c).2 := by
  rcases b.serve_cases t c with he | he
  · rw [he]
    exact h.move t.now _
  · rw [he]
    exact h

theorem Arena.hearsIn : Arena.env.HearsIn R v fun a => Holds R v a.backend where
  start h := h
  poll {i c w} h := by
    show Holds R v (w.poll i).2.backend
    unfold Arena.poll
    split
    · exact h
    · exact Backend.moves_inv (fun now m h => h.move now m) _ h
    · exact Holds.serve (Backend.moves_inv (fun now m h => h.move now m) _ h) _ i
  hears {i c w r} h hr := by
    have hr : (w.poll i).1 = .inr r := hr
    unfold Arena.poll at hr
    split at hr
    · cases hr
    · cases hr
    · rename_i moves fate plan hp
      cases hr
      have hm := Backend.moves_inv (I := Holds R v) (fun now m h => h.move now m) moves h
      exact Backend.hears_serve hm.1 hm.2 _ i

/-- What is fair to see when `before` was given already. -/
def Seen.Fair (payload before : Bytes) : Seen → Prop
  | .read n b => b = [] → n ≠ 0 → before = payload
  | .rest b => before ++ b = payload
  | .fed size info => info.size = (size : Int) ∧ before.length + size ≤ payload.length

/-- What a job does when `before` was given. -/
def Job.Goes (R : Int) (v : SortedMap Bytes Record) (key : String) (payload before : Bytes) : Job → Prop
  | .idle r => r.Reads R v ∧ payload = before ++ r.remaining v
  | .read n p => ∃ r : Reader Flight, payload = before ++ r.remaining v ∧
    p.Ensures (reading R v) (fun x _ => x.2.Reads R v ∧ r.Yields v n x.1.toOption x.2) ()
  | .rest p => p.Ensures (reading R v) (fun x _ => ∀ b, x = .ok b → before ++ b = payload) ()
  | .feed c size p => p.Ensures
    (feeding R v key c.config.chunkSize size ((payload.drop before.length).take size))
    (fun x _ => ∀ info, x = .ok info → info.size = (size : Int) ∧ before.length + size ≤ payload.length) ()
  | .ended => True

structure Session.Follows (R : Int) (v : SortedMap Bytes Record) (key : String) (payload : Bytes)
    (s : Session) (seen : List Seen) : Prop where
  holds : Holds R v s.backend
  front : given seen <+: payload
  fair : ∀ before x after, seen = before ++ x :: after → x.Fair payload (given before)
  goes : s.job.Goes R v key payload (given seen)

theorem given_snoc (seen : List Seen) (x : Seen) : given (seen ++ [x]) = given seen ++ x.bytes := by
  simp [given]

namespace Session

variable {key : String} {payload : Bytes} {s : Session} {seen : List Seen}

theorem Follows.see (h : s.Follows R v key payload seen) {s' : Session} {x : Seen}
    (hh : Holds R v s'.backend) (hx : x.Fair payload (given seen))
    (hf : given seen ++ x.bytes <+: payload) (hg : s'.job.Goes R v key payload (given seen ++ x.bytes)) :
    s'.Follows R v key payload (seen ++ [x]) := by
  refine ⟨hh, by rwa [given_snoc], fun before y after he => ?_, by rwa [given_snoc]⟩
  rcases List.append_eq_append_iff.1 he with ⟨a, ha, hb⟩ | ⟨a, ha, hb⟩
  · cases a with
    | nil =>
      rw [List.append_nil] at ha
      obtain ⟨rfl, _⟩ := List.cons.inj hb
      rw [ha]
      exact hx
    | cons z a => exact absurd (congrArg List.length hb) (by simp)
  · cases a with
    | nil =>
      rw [List.append_nil] at ha
      obtain ⟨rfl, _⟩ := List.cons.inj hb
      rw [← ha]
      exact hx
    | cons z a =>
      obtain ⟨rfl, rfl⟩ := List.cons.inj hb
      exact h.fair before _ a ha

theorem Follows.go (h : s.Follows R v key payload seen) {s' : Session} (hh : Holds R v s'.backend)
    (hg : s'.job.Goes R v key payload (given seen)) : s'.Follows R v key payload seen :=
  ⟨hh, h.front, h.fair, hg⟩

theorem Follows.yield (h : s.Follows R v key payload seen) {b : Backend} {n : Nat} {r r' : Reader Flight}
    {x : Option Bytes} (hh : Holds R v b) (hp : payload = given seen ++ r.remaining v)
    (hr : r'.Reads R v) (hy : r.Yields v n x r') :
    Follows R v key payload ⟨b, .idle r'⟩ (seen ++ (x.map (Seen.read n)).toList) := by
  cases x with
  | none =>
    rw [Option.map_none, Option.toList_none, List.append_nil]
    exact h.go hh ⟨hr, by rw [hp, hy]⟩
  | some c =>
    obtain ⟨hrem, _, hnil⟩ := hy
    have hp' : payload = (given seen ++ c) ++ r'.remaining v := by rw [hp, hrem, List.append_assoc]
    refine h.see hh (fun hc hn => ?_) ⟨_, hp'.symm⟩ ⟨hr, hp'⟩
    rw [hp, (hnil hc).resolve_left hn, List.append_nil]

variable (hv : ∀ k r, v.get? k = some r → r.createRevision ≠ 0)
include hv

theorem Follows.next (h : s.Follows R v key payload seen) (e : Event) :
    (s.next key e).1.Follows R v key payload (seen ++ (s.next key e).2.toList) := by
  obtain ⟨b, job⟩ := s
  have hb := h.holds
  have hg := h.goes
  have stay : Follows R v key payload ⟨b, job⟩ (seen ++ []) := by rwa [List.append_nil]
  have hserve : ∀ (t : Turn) (c : Call), Hears R v c (b.serve t c).1 :=
    fun t c => Backend.hears_serve hb.1 hb.2 t c
  have hstep : ∀ {α : Type} (t : Turn) (p : Prog Call.Answer Flight α),
      Holds R v (p.step (fun c b => b.serve t c) t b).2 :=
    fun t p => Prog.step_inv hb (fun c => hb.serve t c) t p
  cases e with
  | other now m =>
    simp only [Session.next, Option.toList_none, List.append_nil]
    exact h.go (hb.move now m) hg
  | read n =>
    cases job with
    | idle r =>
      simp only [Session.next, Option.toList_none, List.append_nil]
      exact h.go hb ⟨r, hg.2, Reader.ensures_read hv n hg.1⟩
    | _ => exact stay
  | poll n now today plan =>
    cases job with
    | idle r =>
      obtain ⟨hr, hh, hy⟩ := Reader.poll_spec hv Arena.hearsIn n (r.left + 1) (w := ⟨b, now, today, plan⟩) hg.1
        (Nat.lt_succ_self _) hb
      exact h.yield hh hg.2 hr hy
    | _ => exact stay
  | readToEnd =>
    cases job with
    | idle r =>
      simp only [Session.next, Option.toList_none, List.append_nil]
      refine h.go hb ((Reader.ensures_rest hv hg.1).mono fun x _ hx c hc => ?_)
      rw [hx c hc, ← hg.2]
    | _ => exact stay
  | feed c size =>
    cases job with
    | idle r =>
      simp only [Session.next]
      split
      · rename_i hc
        simp only [Option.toList_none, List.append_nil]
        have hd : payload.drop (given seen).length = r.remaining v := by rw [hg.2, List.drop_left]
        have hf : (put c key size (.reader r)).run.Ensures (feeding R v key _ size _) _ () :=
          ensures_put_feeding hv hc hg.1
        refine h.go hb ?_
        show Prog.Ensures _ _ _ _
        rw [hd]
        refine hf.mono fun x _ hx info hi => ⟨(hx info hi).1, ?_⟩
        rw [hg.2, List.length_append]
        exact Nat.add_le_add_left (hx info hi).2 _
      · exact stay
    | _ => exact stay
  | turn t =>
    cases job with
    | idle r => exact stay
    | ended => exact stay
    | read n p =>
      obtain ⟨r, hp, he⟩ := hg
      have hs : (p.step (fun c b => b.serve t c) t b).1.Ensures _ _ () := he.step_unit t b (hserve t)
      have hh := hstep t p
      simp only [Session.next]
      split
      · rename_i x r' b' hx
        rw [hx] at hs hh
        obtain ⟨hr, hy⟩ := hs () trivial
        exact h.yield hh hp hr hy
      · rename_i p' b' _ hx
        rw [hx] at hs hh
        simp only [Option.toList_none, List.append_nil]
        exact h.go hh ⟨r, hp, hs⟩
    | rest p =>
      have hs : (p.step (fun c b => b.serve t c) t b).1.Ensures _ _ () := hg.step_unit t b (hserve t)
      have hh := hstep t p
      simp only [Session.next]
      split
      · rename_i x b' hx
        rw [hx] at hs hh
        have hp := hs () trivial
        cases x with
        | error f => exact (List.append_nil seen).symm ▸ h.go hh trivial
        | ok c =>
          have he := hp c rfl
          exact h.see hh he ⟨[], by rw [List.append_nil]; exact he⟩ trivial
      · rename_i p' b' _ hx
        rw [hx] at hs hh
        simp only [Option.toList_none, List.append_nil]
        exact h.go hh hs
    | feed c size p =>
      have hs : (p.step (fun c b => b.serve t c) t b).1.Ensures _ _ () := hg.step_unit t b (hserve t)
      have hh := hstep t p
      simp only [Session.next]
      split
      · rename_i x b' hx
        rw [hx] at hs hh
        have hp := hs () trivial
        cases x with
        | error f => exact (List.append_nil seen).symm ▸ h.go hh trivial
        | ok info => exact h.see hh (hp info rfl) (by rw [Seen.bytes, List.append_nil]; exact h.front) trivial
      · rename_i p' b' _ hx
        rw [hx] at hs hh
        simp only [Option.toList_none, List.append_nil]
        exact h.go hh hs

theorem Follows.run (events : List Event) : ∀ {s : Session} {seen : List Seen},
    s.Follows R v key payload seen →
      (run key s seen events).1.Follows R v key payload (run key s seen events).2 := by
  induction events with
  | nil => exact fun h => h
  | cons e events ih => exact fun h => ih (h.next hv e)

end Session

theorem Opened.follows {b : Backend} (hb : b.Reached) {key : String} {payload : Bytes} {r : Reader Flight}
    (h : Opened b.store key payload r) :
    Session.Follows r.pin.revision (b.store.asOf r.pin.revision) key payload ⟨b, .idle r⟩ [] := by
  obtain ⟨hr, hrem⟩ := h.reads
  refine ⟨⟨hb.sound, h.pos, h.le, fun _ => rfl⟩, List.nil_prefix, fun before x after he => ?_, hr, hrem.symm⟩
  exact absurd (congrArg List.length he) (by simp)

/-- Whatever others do and whatever becomes of its calls, a reader gives the bytes of the value that it
was opened on, in order and once, says that there are no more only when it gave them all, reads to the
end what was left, and feeds a put with just that. -/
theorem reader_snapshot {b : Backend} (hb : b.Reached) {key : String} {payload : Bytes} {r : Reader Flight}
    (h : Opened b.store key payload r) (events : List Session.Event) :
    let out := Session.run key ⟨b, .idle r⟩ [] events
    given out.2 <+: payload ∧
      (∀ before n after, out.2 = before ++ .read n [] :: after → n ≠ 0 → given before = payload) ∧
      (∀ before c after, out.2 = before ++ .rest c :: after → given before ++ c = payload) ∧
      (∀ c size p k chunk lease, out.1.job = .feed c size p → p.asks? = some (.put k chunk lease) →
        ∃ (version : Int) (i : Nat), k = Utf8.encode (chunkKey key version i) ∧
          i < chunkCount size c.config.chunkSize ∧
          chunk = piece c.config.chunkSize ((payload.drop (given out.2).length).take size) i) ∧
      ∀ before (size : Nat) info after, out.2 = before ++ .fed size info :: after →
        info.size = (size : Int) ∧ (given before).length + size ≤ payload.length := by
  have hv : ∀ k x, (b.store.asOf r.pin.revision).get? k = some x → x.createRevision ≠ 0 := by
    intro k x hx
    obtain ⟨_, _, hf⟩ := hb.sound.dated.asOf hx
    have := hf.create_pos
    omega
  have hf := (h.follows hb).run hv events
  refine ⟨hf.front, fun before n after he hn => hf.fair before _ after he rfl hn,
    fun before c after he => hf.fair before _ after he, fun c size p k chunk lease hj hk => ?_,
    fun before size info after he => hf.fair before _ after he⟩
  have hg := hf.goes
  rw [hj] at hg
  exact hg.may_of_asks? hk k chunk lease rfl

/-- A first read fails and is made again once the value is deleted; the next one meets another value at the key. -/
theorem reader_snapshot_overwritten :
    let look : Call := .range (.single (Utf8.encode (infoKey "k"))) none
    let value (info : Info) (chunks : List Bytes) : List Move :=
      .call (.put (Utf8.encode (infoKey "k")) info.toBytes none) ::
        chunks.mapIdx fun i x => .call (.put (Utf8.encode (chunkKey "k" info.version i)) x none)
    let b₀ := (Backend.ofMembers ["a"]).moves ((value ⟨3, 2, 1⟩ [[7, 8], [9]]).map (0, ·))
    let b := b₀.move 0 (.call look)
    let r : Reader Flight := ⟨.ofConfig default, "k", ⟨⟨3, 2, 1⟩, 4⟩, 0, [], none⟩
    let other (m : Move) : Session.Event := .other 0 m
    let turn (fate : Fate) : Session.Event := .turn ⟨0, ⟨0, 0⟩, fate⟩
    let events := [.read 2, turn (.lost (.requestTimeout 10000)),
      other (.call (.txn (deleteTxn "k"))), .read 2, turn .answered] ++
      (value ⟨2, 2, 1⟩ [[1], [2]]).map other ++
      [.poll 2 0 ⟨0, 0⟩ [([], none)], .poll 2 0 ⟨0, 0⟩ [([.mk 0 (.compact 3)], some .answered)],
        .readToEnd, turn .answered]
    let out := Session.run "k" ⟨b, .idle r⟩ [] events
    b.Reached ∧ Opened b.store "k" [7, 8, 9] r ∧ out.2.map Seen.bytes = [[7, 8], [9], []] ∧
      given out.2 <+: [7, 8, 9] ∧
      ∀ before c after, out.2 = before ++ .rest c :: after → given before ++ c = [7, 8, 9] := by
  intro look value b₀ b r other turn events out
  have hb₀ : b₀.Reached := Backend.moves_inv (fun now m h => .move h now m) _ (.ofMembers ["a"])
  have hb : b.Reached := hb₀.move 0 (.call look)
  have hinfo : Info.ofBytes? (Info.toBytes ⟨3, 2, 1⟩) = some ⟨3, 2, 1⟩ :=
    Info.ofBytes?_toBytes (by unfold Info.Fits; decide)
  have hlook : (show Outcome RangeAnswer from (b₀.answer 0 look).1).toOption =
      some ⟨4, [⟨Utf8.encode (infoKey "k"), Info.toBytes ⟨3, 2, 1⟩, 2, 2, 1, 0⟩]⟩ := by decide +kernel
  cases ha : (b₀.answer 0 look).1 with
  | error f => rw [ha] at hlook; cases hlook
  | ok a =>
    rw [ha] at hlook
    cases hlook
    have ho : Opened b.store "k" [7, 8, 9] r := opened_of_answer hb₀.sound ha rfl hinfo _ (by decide +kernel)
    obtain ⟨hgiven, -, hrest, -⟩ := reader_snapshot hb ho events
    exact ⟨hb, ho, by decide +kernel, hgiven, hrest⟩

end Keyspace.Chunked
