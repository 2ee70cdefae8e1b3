import Keyspace.Proofs.Chunked.Layout
import Keyspace.Proofs.Run.Reading

/-!
# What readers read

A reader has its buffer and what the view holds of its chunks before it: `remaining`. Every way of
reading takes bytes off the front of that, and a failed one that can be tried again takes none.
-/

namespace Keyspace.Chunked

variable {φ : Call → Type} {R : Int} {v : SortedMap Bytes Record}

def chunk? (v : SortedMap Bytes Record) (key : String) (version index : Int) : Option Bytes :=
  (v.get? (Utf8.encode (chunkKey key version index))).map (·.value)

/-- So many chunks from an index on, up to the first that is not there. -/
def chunksFrom (v : SortedMap Bytes Record) (key : String) (version : Int) : Nat → Int → Bytes
  | 0, _ => []
  | n + 1, i =>
    match chunk? v key version i with
    | none => []
    | some b => b ++ chunksFrom v key version n (i + 1)

def assemble (v : SortedMap Bytes Record) (key : String) (version : Int) (count : Nat) : Option Bytes :=
  ((List.range count).mapM fun i : Nat => chunk? v key version i).map List.flatten

theorem chunksFrom_of_mapM {key : String} {version : Int} (n : Nat) : ∀ {i : Nat} {bs : List Bytes},
    ((List.range' i n).mapM fun j : Nat => chunk? v key version j) = some bs →
      chunksFrom v key version n i = bs.flatten := by
  induction n with
  | zero =>
    intro i bs h
    cases h
    rfl
  | succ n ih =>
    intro i bs h
    rw [List.range'_succ, List.mapM_cons] at h
    obtain ⟨b, hb, h⟩ := Option.bind_eq_some_iff.1 h
    obtain ⟨cs, hcs, h⟩ := Option.bind_eq_some_iff.1 h
    cases h
    rw [chunksFrom, hb]
    exact congrArg (b ++ ·) (ih hcs)

theorem chunksFrom_of_assemble {key : String} {version : Int} {count : Nat} {b : Bytes}
    (h : assemble v key version count = some b) : chunksFrom v key version count 0 = b := by
  obtain ⟨bs, hbs, rfl⟩ := Option.map_eq_some_iff.1 h
  rw [List.range_eq_range'] at hbs
  exact chunksFrom_of_mapM count hbs

namespace Reader

def beyond (v : SortedMap Bytes Record) (r : Reader φ) : Bytes :=
  chunksFrom v r.key r.pin.info.version r.left r.next

/-- What is yet to be read. -/
def remaining (v : SortedMap Bytes Record) (r : Reader φ) : Bytes := r.buffer ++ r.beyond v

def Fetches (v : SortedMap Bytes Record) (r : Reader φ) (x : Outcome Bytes) : Prop :=
  ∀ b, x = .ok b → chunk? v r.key r.pin.info.version r.next = some b

/-- The reader reads the view at `R`, with the fetch that it may have begun too. -/
structure Reads (R : Int) (v : SortedMap Bytes Record) (r : Reader φ) : Prop where
  pin : r.pin.revision = R
  pending : ∀ p, r.pending = some p → p.Ensures (reading R v) (fun x _ => r.Fetches v x) ()

variable {r r' : Reader φ}

theorem remaining_of_empty (h : r.buffer = []) : r.remaining v = r.beyond v := by
  rw [remaining, h, List.nil_append]

theorem left_eq_zero (h : r.isAtEnd = true) : r.left = 0 := by
  unfold isAtEnd at h
  unfold left
  have := of_decide_eq_true h
  omega

theorem beyond_of_atEnd (h : r.isAtEnd = true) : r.beyond v = [] := by
  rw [beyond, left_eq_zero h]
  rfl

theorem left_fetched (h : r.isAtEnd = false) : r.left = r.fetched.left + 1 := by
  unfold isAtEnd at h
  have := of_decide_eq_false h
  simp only [left, fetched]
  omega

theorem beyond_fetched (h : r.isAtEnd = false) {b : Bytes}
    (hb : chunk? v r.key r.pin.info.version r.next = some b) : r.beyond v = b ++ r.fetched.beyond v := by
  rw [beyond, left_fetched h, chunksFrom, hb]
  rfl

theorem Reads.fetched (h : r.Reads R v) : r.fetched.Reads R v := ⟨h.pin, fun p hp => by cases hp⟩

theorem Reads.forget (h : r.Reads R v) : Reads (φ := φ) R v { r with pending := none } :=
  ⟨h.pin, fun p hp => by cases hp⟩

theorem Reads.setBuffer (h : r.Reads R v) (b : Bytes) : Reads R v { r with buffer := b } :=
  ⟨h.pin, h.pending⟩

theorem remaining_takeBuffer (n : Nat) (r : Reader φ) :
    r.remaining v = (r.takeBuffer n).1 ++ (r.takeBuffer n).2.remaining v := by
  show r.buffer ++ r.beyond v = r.buffer.take n ++ (r.buffer.drop n ++ r.beyond v)
  rw [← List.append_assoc, List.take_append_drop]

/-- A read of up to `n` bytes takes some off the front, none only at the end or if none were asked
for; one that has nothing to give takes none. -/
def Yields (v : SortedMap Bytes Record) (n : Nat) (r : Reader φ) : Option Bytes → Reader φ → Prop
  | some b, r' => r.remaining v = b ++ r'.remaining v ∧ b.length ≤ n ∧ (b = [] → n = 0 ∨ r.remaining v = [])
  | none, r' => r'.remaining v = r.remaining v

theorem yields_takeBuffer (n : Nat) {r : Reader φ} (h : r.buffer ≠ [] ∨ r.remaining v = []) :
    Yields v n r (some (r.takeBuffer n).1) (r.takeBuffer n).2 := by
  refine ⟨remaining_takeBuffer n r, List.length_take_le n r.buffer, fun hnil => ?_⟩
  rcases List.take_eq_nil_iff.1 hnil with hn | hb
  · exact .inl hn
  · exact .inr (h.resolve_left fun hne => hne hb)

section
variable (hv : ∀ k r, v.get? k = some r → r.createRevision ≠ 0)
include hv

theorem ensures_fetch (h : r.Reads R v) : r.fetch.Ensures (reading R v) (fun x _ => r.Fetches v x) () := by
  have hget := Client.ensures_get (φ := φ) hv r.client (chunkKey r.key r.pin.info.version r.next) (R := R)
  rw [← h.pin] at hget ⊢
  refine Action.ensures_bind
    (Q := fun e _ => e = (v.get? (Utf8.encode (chunkKey r.key r.pin.info.version r.next))).map Entry.ofRecord)
    (R := fun x _ => r.Fetches v x) (fun _ _ e he => by cases he) (hget.mono ?_) ?_
  · intro x _ hx
    cases x with
    | error f => exact fun b hb => by cases hb
    | ok e => exact hx e rfl
  · intro e _ he
    subst he
    unfold Fetches chunk?
    cases v.get? (Utf8.encode (chunkKey r.key r.pin.info.version r.next)) with
    | none => exact fun _ _ b hb => by cases hb
    | some x => exact fun _ _ b hb => by cases hb; rfl

theorem ensures_fetchOrPending (h : r.Reads R v) :
    r.fetchOrPending.Ensures (reading R v) (fun x _ => r.Fetches v x) () := by
  unfold fetchOrPending
  cases hp : r.pending with
  | none => exact ensures_fetch hv h
  | some p => exact h.pending p hp

/-! ## One chunk -/

def Took (R : Int) (v : SortedMap Bytes Record) (r : Reader φ) : Outcome (Option Bytes) × Reader φ → Prop
  | (.ok none, r') => r' = r ∧ r.left = 0 ∧ r.beyond v = []
  | (.ok (some b), r') =>
    r'.Reads R v ∧ r'.buffer = r.buffer ∧ r.left = r'.left + 1 ∧ r.beyond v = b ++ r'.beyond v
  | (.error _, r') => r'.Reads R v ∧ r'.buffer = r.buffer ∧ r'.left = r.left ∧ r'.beyond v = r.beyond v

theorem ensures_nextChunk (h : r.Reads R v) :
    r.nextChunk.Ensures (reading R v) (fun x _ => Took R v r x) () := by
  unfold nextChunk
  cases he : r.isAtEnd with
  | true => exact fun _ _ => ⟨rfl, left_eq_zero he, beyond_of_atEnd he⟩
  | false =>
    apply (ensures_fetchOrPending hv h).bind
    intro x _ hx
    cases x with
    | ok b => exact fun _ _ => ⟨h.fetched, rfl, left_fetched he, beyond_fetched he (hx b rfl)⟩
    | error f => exact fun _ _ => ⟨h.forget, rfl, rfl, rfl⟩

/-! ## Waiting reads -/

theorem ensures_fill : ∀ (k : Nat) {r : Reader φ}, r.Reads R v → r.left < k →
    (fill k r).Ensures (reading R v) (fun x _ => x.2.Reads R v ∧ x.2.remaining v = r.remaining v ∧
      ∀ more, x.1 = .ok more → if more then x.2.buffer ≠ [] else x.2.remaining v = []) () := by
  intro k
  induction k with
  | zero => intro r _ hk; omega
  | succ k ih =>
    intro r h hk
    unfold fill
    by_cases hb : r.buffer = []
    · rw [if_pos (by simp [hb])]
      apply (ensures_nextChunk hv h).bind
      intro x _ hx
      obtain ⟨x, r'⟩ := x
      match x with
      | .error f =>
        obtain ⟨h', hbuf, _, hbe⟩ := hx
        exact fun _ _ => ⟨h', by rw [remaining, remaining, hbuf, hbe], fun _ hm => by cases hm⟩
      | .ok none =>
        obtain ⟨rfl, _, hbe⟩ := hx
        refine fun _ _ => ⟨h, rfl, fun _ hm => ?_⟩
        cases hm
        exact (remaining_of_empty hb).trans hbe
      | .ok (some b) =>
        obtain ⟨h', _, hl, hbe⟩ := hx
        apply (ih (h'.setBuffer b) (by show r'.left < k; omega)).mono
        intro y _ hy
        rw [remaining_of_empty hb, hbe]
        exact hy
    · rw [if_neg (by simpa using hb)]
      refine fun _ _ => ⟨h, rfl, fun _ hm => ?_⟩
      cases hm
      exact hb

theorem ensures_read (n : Nat) (h : r.Reads R v) :
    (read n r).Ensures (reading R v) (fun x _ => x.2.Reads R v ∧ Yields v n r x.1.toOption x.2) () := by
  unfold read
  by_cases hn : n = 0
  · rw [if_pos hn]
    exact fun _ _ => ⟨h, rfl, Nat.zero_le n, fun _ => .inl hn⟩
  · rw [if_neg hn]
    apply (ensures_fill hv (r.left + 1) h (Nat.lt_succ_self _)).bind
    intro x _ hx
    obtain ⟨x, r'⟩ := x
    obtain ⟨h', hrem, hmore⟩ := hx
    cases x with
    | error f => exact fun _ _ => ⟨h', hrem⟩
    | ok more =>
      have hy : Yields v n r' (some (r'.takeBuffer n).1) (r'.takeBuffer n).2 := by
        apply yields_takeBuffer n
        have hm := hmore more rfl
        cases more with
        | true => exact .inl hm
        | false => exact .inr hm
      unfold Yields at hy
      simp only at hrem
      rw [hrem] at hy
      exact fun _ _ => ⟨h'.setBuffer _, hy⟩

theorem ensures_chunks : ∀ (k : Nat) {r : Reader φ}, r.Reads R v → r.left < k →
    (chunks k r).Ensures (reading R v) (fun x _ => ∀ b, x = .ok b → b = r.beyond v) () := by
  intro k
  induction k with
  | zero => intro r _ hk; omega
  | succ k ih =>
    intro r h hk
    unfold chunks
    apply (ensures_nextChunk hv h).bind
    intro x _ hx
    obtain ⟨x, r'⟩ := x
    match x with
    | .error f => exact fun _ _ b hb => by cases hb
    | .ok none => exact fun _ _ b hb => by cases hb; exact hx.2.2.symm
    | .ok (some c) =>
      obtain ⟨h', _, hl, hbe⟩ := hx
      apply (ih h' (by omega)).bind
      intro y _ hy
      cases y with
      | error f => exact fun _ _ b hb => by cases hb
      | ok bs =>
        intro _ _ b hb
        cases hb
        rw [hbe, hy bs rfl]

theorem ensures_rest (h : r.Reads R v) :
    r.rest.Ensures (reading R v) (fun x _ => ∀ b, x = .ok b → b = r.remaining v) () := by
  apply (ensures_chunks hv (r.left + 1) h (Nat.lt_succ_self _)).bind
  intro x _ hx
  cases x with
  | error f => exact fun _ _ b hb => by cases hb
  | ok bs =>
    intro _ _ b hb
    cases hb
    rw [remaining, hx bs rfl]

theorem ensures_readExact : ∀ (k n : Nat) {r : Reader φ}, r.Reads R v →
    (readExact k n r).Ensures (reading R v) (fun x _ => ∀ b, x.1 = .ok b →
      x.2.Reads R v ∧ b.length = n ∧ r.remaining v = b ++ x.2.remaining v) () := by
  intro k
  induction k with
  | zero => intro n r _ _ _ b hb; cases hb
  | succ k ih =>
    intro n r h
    unfold readExact
    by_cases hn : n ≤ r.buffer.length
    · rw [if_pos hn]
      intro _ _ b hb
      cases hb
      exact ⟨h.setBuffer _, List.length_take_of_le hn, remaining_takeBuffer n r⟩
    · rw [if_neg hn]
      apply (ensures_nextChunk hv (h.setBuffer [])).bind
      intro x _ hx
      obtain ⟨x, r'⟩ := x
      match x with
      | .error f => exact fun _ _ b hb => by cases hb
      | .ok none => exact fun _ _ b hb => by cases hb
      | .ok (some c) =>
        obtain ⟨h', _, _, hbe⟩ := hx
        apply (ih (n - r.buffer.length) (h'.setBuffer c)).bind
        intro y _ hy
        obtain ⟨y, r''⟩ := y
        cases y with
        | error f => exact fun _ _ b hb => by cases hb
        | ok bs =>
          intro _ _ b hb
          cases hb
          obtain ⟨h'', hlen, hrem⟩ := hy bs rfl
          refine ⟨h'', by rw [List.length_append, hlen]; omega, ?_⟩
          have hbe : r.beyond v = c ++ r'.beyond v := hbe
          have hrem : c ++ r'.beyond v = bs ++ r''.remaining v := hrem
          rw [remaining, hbe, hrem, List.append_assoc]

/-! ## Reads that do not wait -/

def Poll.toOption : Poll → Option Bytes
  | .ready b => some b
  | _ => none

theorem poll_spec {W : Type} {h : Env Call.Answer φ W} {I : W → Prop} (hh : h.HearsIn R v I) (n : Nat) :
    ∀ (k : Nat) {r : Reader φ} {w : W}, r.Reads R v → r.left < k → I w →
      (poll h n k r w).2.1.Reads R v ∧ I (poll h n k r w).2.2 ∧
        Yields v n r (poll h n k r w).1.toOption (poll h n k r w).2.1 := by
  intro k
  induction k with
  | zero => intro r w _ hk; omega
  | succ k ih =>
    intro r w hr hk hw
    unfold poll
    by_cases hb : r.buffer = []
    · rw [if_neg (by simp [hb])]
      cases he : r.isAtEnd with
      | true =>
        have hrem := (remaining_of_empty hb).trans (beyond_of_atEnd (v := v) he)
        rw [if_pos rfl]
        exact ⟨hr, hw, rfl, Nat.zero_le n, fun _ => .inr hrem⟩
      | false =>
        obtain ⟨hp, hI⟩ := (ensures_fetchOrPending hv hr).advance hh r.fetchOrPending hw
        simp only [Bool.false_eq_true, if_false]
        split
        · rename_i b w' hx
          rw [hx] at hp hI
          have hc := hp () trivial b rfl
          obtain ⟨hr', hI', hy⟩ := ih (w := w') (hr.fetched.setBuffer b)
            (by have := left_fetched he; show r.fetched.left < k; omega) hI
          have hrem : remaining v { r.fetched with buffer := b } = r.remaining v := by
            rw [remaining_of_empty hb, beyond_fetched he hc]
            rfl
          refine ⟨hr', hI', ?_⟩
          unfold Yields at hy ⊢
          rw [hrem] at hy
          exact hy
        · rename_i f w' hx
          rw [hx] at hI
          exact ⟨hr.forget, hI, rfl⟩
        · rename_i p w' _ _ hx
          rw [hx] at hp hI
          refine ⟨⟨hr.pin, fun q hq => ?_⟩, hI, rfl⟩
          cases hq
          exact hp
    · rw [if_pos (by simpa using hb)]
      exact ⟨hr.setBuffer _, hw, yields_takeBuffer n (.inl hb)⟩

end

end Reader

/-! ## Sources -/

namespace Source

def content (v : SortedMap Bytes Record) : Source φ → Bytes
  | .bytes b => b
  | .reader r => r.remaining v

def Reads (R : Int) (v : SortedMap Bytes Record) : Source φ → Prop
  | .bytes _ => True
  | .reader r => r.Reads R v

theorem ensures_take (hv : ∀ k r, v.get? k = some r → r.createRevision ≠ 0) (n : Nat) {s : Source φ}
    (h : s.Reads R v) : (s.take n).run.Ensures (reading R v) (fun x _ => ∀ b s', x = .ok (b, s') →
      s'.Reads R v ∧ b.length = n ∧ s.content v = b ++ s'.content v) () := by
  cases s with
  | bytes c =>
    unfold take
    by_cases hn : c.length < n
    · simp only [if_pos hn]
      exact fun _ _ b s' hb => by cases hb
    · simp only [if_neg hn]
      intro _ _ b s' hb
      cases hb
      exact ⟨trivial, List.length_take_of_le (by omega), (List.take_append_drop n c).symm⟩
  | reader r =>
    apply (Reader.ensures_readExact hv (r.left + 2) n h).bind
    intro x _ hx
    obtain ⟨x, r'⟩ := x
    cases x with
    | error f => exact fun _ _ b s' hb => by cases hb
    | ok c =>
      intro _ _ b s' hb
      cases hb
      exact hx c rfl

/-- A source from which the pieces below `index` were taken of what was `content`, and `left` more are to
be. -/
structure Stands (R : Int) (v : SortedMap Bytes Record) (content : Bytes) (size chunkSize index left : Nat)
    (s : Source φ) : Prop where
  reads : s.Reads R v
  count : index + left = chunkCount size chunkSize
  rest : 0 < left → s.content v = content.drop (index * chunkSize)
  enough : min size (index * chunkSize) ≤ content.length

variable {content : Bytes} {size chunkSize index left : Nat} {s : Source φ}

theorem Reads.stands (h : s.Reads R v) (size chunkSize : Nat) :
    Stands R v (s.content v) size chunkSize 0 (chunkCount size chunkSize) s where
  reads := h
  count := Nat.zero_add _
  rest _ := by rw [Nat.zero_mul, List.drop_zero]
  enough := by omega

theorem Stands.enough_of_done (h : Stands R v content size chunkSize index 0 s) (hc : 0 < chunkSize) :
    size ≤ content.length := by
  have hn : ¬ chunkCount size chunkSize * chunkSize < size := fun h =>
    Nat.lt_irrefl _ ((lt_chunkCount_iff hc).2 h)
  have h₁ := h.count
  have h₂ := h.enough
  rw [Nat.add_zero] at h₁
  rw [h₁] at h₂
  omega

theorem Stands.ensures_take (hv : ∀ k r, v.get? k = some r → r.createRevision ≠ 0)
    (h : Stands R v content size chunkSize index (left + 1) s) :
    (s.take (chunkLength size chunkSize index)).run.Ensures (reading R v) (fun x _ => ∀ b s', x = .ok (b, s') →
      b = piece chunkSize (content.take size) index ∧
        Stands R v content size chunkSize (index + 1) left s') () := by
  apply (Source.ensures_take hv _ h.reads).mono
  intro x _ hx b s' he
  obtain ⟨hr, hb, hsplit⟩ := hx b s' he
  have hcount := h.count
  rw [h.rest (Nat.succ_pos left)] at hsplit
  refine ⟨by rw [← take_chunkLength, hsplit, ← hb, List.take_left], hr, by omega, fun hl => ?_, ?_⟩
  · have hfull : chunkLength size chunkSize index = chunkSize := chunkLength_of_lt (by omega)
    have := congrArg (List.drop chunkSize) hsplit
    rw [List.drop_drop, List.drop_left' (hb.trans hfull)] at this
    rw [← this, Nat.succ_mul]
  · have hlen := congrArg List.length hsplit
    have henough := h.enough
    rw [List.length_drop, List.length_append, hb] at hlen
    rw [Nat.succ_mul]
    unfold chunkLength at hlen
    omega

end Source

end Keyspace.Chunked
