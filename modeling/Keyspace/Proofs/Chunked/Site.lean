import Keyspace.Proofs.Chunked.Layout
import Keyspace.Proofs.Chunked.Reading
import Keyspace.Proofs.Store.Commit

/-!
# What is live at a key

Beside the store stands a record of what was made live at a key, and at which revision. `Good` says
that at every revision that can be read the store shows just that. What happens at other keys keeps
it, and so does a commit that shows what it should.
-/

namespace Keyspace.Chunked

/-! ## Live values -/

structure Live where
  version : Int
  chunkSize : Nat
  /-- The size that was asked for. -/
  size : Nat
  bytes : Bytes
  deriving DecidableEq, Repr

namespace Live

def count (l : Live) : Nat := chunkCount l.size l.chunkSize

def info (l : Live) : Info := ⟨l.size, l.count, l.version⟩

/-- The numbers of the info record are 64-bit. -/
structure Fits (l : Live) : Prop where
  chunkSize : 0 < l.chunkSize
  size : l.size < 9223372036854775808
  version_pos : 0 < l.version
  version : l.version < 9223372036854775808

theorem Fits.info {l : Live} (h : l.Fits) : l.info.Fits := by
  have hc : l.count ≤ l.size := by
    apply Nat.le_of_not_lt
    intro hlt
    have := (lt_chunkCount_iff h.chunkSize).1 hlt
    exact absurd (Nat.le_mul_of_pos_right l.size h.chunkSize) (Nat.not_le_of_lt this)
  intro n hn
  have h₁ := h.size
  have h₂ := h.version
  have h₃ := h.version_pos
  simp only [Live.info, List.mem_cons, List.not_mem_nil, or_false] at hn
  rcases hn with rfl | rfl | rfl <;> omega

end Live

/-- A view shows a value, or that there is none. -/
def Shows (key : String) (v : SortedMap Bytes Record) : Option Live → Prop
  | none => v.get? (Utf8.encode (infoKey key)) = none
  | some l => l.Fits ∧ l.bytes.length = l.size ∧
    (∃ r, v.get? (Utf8.encode (infoKey key)) = some r ∧ r.value = l.info.toBytes) ∧
      ∀ i < l.count, chunk? v key l.version i = some (piece l.chunkSize l.bytes i)

section
variable {key : String} {v v' : SortedMap Bytes Record} {live : Option Live}

theorem Shows.congr (h : Shows key v live)
    (hi : v'.get? (Utf8.encode (infoKey key)) = v.get? (Utf8.encode (infoKey key)))
    (hc : ∀ l, live = some l → ∀ i : Int, v'.get? (Utf8.encode (chunkKey key l.version i)) =
      v.get? (Utf8.encode (chunkKey key l.version i))) : Shows key v' live := by
  cases live with
  | none => exact hi.trans h
  | some l =>
    obtain ⟨hf, hlen, hinfo, hchunks⟩ := h
    refine ⟨hf, hlen, by rwa [hi], fun i hlt => ?_⟩
    rw [chunk?, hc l rfl i]
    exact hchunks i hlt

theorem Shows.congr_owned (h : Shows key v live) (he : ∀ k, Owns key k → v'.get? k = v.get? k) :
    Shows key v' live :=
  h.congr (he _ owns_infoKey) fun _ _ _ => he _ (owns_chunkKey _ _)

theorem mapM_eq_some {α β : Type} {f : α → Option β} {g : α → β} {l : List α}
    (h : ∀ a ∈ l, f a = some (g a)) : l.mapM f = some (l.map g) := by
  induction l with
  | nil => rfl
  | cons a l ih =>
    rw [List.mapM_cons, h a (by simp), ih fun b hb => h b (List.mem_cons_of_mem _ hb)]
    rfl

theorem Shows.assemble {l : Live} (h : Shows key v (some l)) :
    assemble v key l.version l.count = some l.bytes := by
  obtain ⟨hf, hlen, _, hchunks⟩ := h
  unfold Chunked.assemble
  rw [mapM_eq_some (g := piece l.chunkSize l.bytes) fun i hi => hchunks i (List.mem_range.1 hi),
    Option.map_some, Live.count, ← hlen, flatten_pieces hf.chunkSize]

end

/-! ## Stores that hold a value -/

def Foreign (key : String) (e : Event) : Prop := ¬ Owns key e.record.key

def Unleased (key : String) (s : Store) : Prop := ∀ k, Owns key k → ∀ r, s.current k = some r → r.lease = 0

/-- Nothing of the value goes when a lease ends. -/
structure Kept (key : String) (s : Store) : Prop where
  sound : s.Sound
  unleased : Unleased key s

namespace Kept

variable {key : String} {s s' : Store}

theorem current_leads (hl : s.Leads (Foreign key) s') {k : Bytes} (hk : Owns key k) : s'.current k = s.current k :=
  hl.current_eq fun _ he hek => he (hek ▸ hk)

theorem leads (h : Kept key s) (hl : s.Leads (Foreign key) s') : Kept key s' :=
  ⟨hl.1, fun k hk r hr => h.unleased k hk r (current_leads hl hk ▸ hr)⟩

theorem foreign_of_frees (h : Kept key s) {e : Event} (he : s.Frees e) : Foreign key e := by
  intro hk
  obtain ⟨_, r, hr, hl⟩ := he
  exact hl (h.unleased _ hk r hr)

theorem leads_expire (h : Kept key s) (now : Nat) : s.Leads (Foreign key) (s.expire now) :=
  (Store.leads_expire h.sound now).mono fun _ => h.foreign_of_frees

theorem leads_move {b : Backend} (h : Kept key b.store) (now : Nat) {m : Move}
    (hm : ∀ k, Owns key k → ¬ m.Writes k) : b.store.Leads (Foreign key) (b.move now m).store := by
  apply (Backend.leads_move h.sound now m).mono
  intro e he
  rcases he with he | he
  · exact fun hk => hm _ hk he
  · exact h.foreign_of_frees he

end Kept

/-! ## The record of what was live -/

/-- What was made live, with its revision, the newest first; nothing stands for a deletion. -/
abbrev Lives := List (Int × Option Live)

namespace Lives

def liveAt (l : Lives) (r : Int) : Option Live := (l.find? (·.1 ≤ r)).bind (·.2)

def live (l : Lives) : Option Live := l.head?.bind (·.2)

theorem liveAt_eq_live {l : Lives} {r : Int} (h : ∀ e ∈ l, e.1 ≤ r) : l.liveAt r = l.live := by
  cases l with
  | nil => rfl
  | cons e l => simp [liveAt, live, h e (by simp)]

theorem liveAt_cons_of_lt {l : Lives} {e : Int × Option Live} {r : Int} (h : r < e.1) :
    liveAt (e :: l) r = l.liveAt r := by
  have : ¬ e.1 ≤ r := by omega
  simp [liveAt, this]

theorem liveAt_cons_of_le {l : Lives} {e : Int × Option Live} {r : Int} (h : e.1 ≤ r) :
    liveAt (e :: l) r = e.2 := by
  simp [liveAt, h]

end Lives

/-- At every revision that can be read the store shows what was live there. -/
structure Good (key : String) (s : Store) (lives : Lives) : Prop where
  sound : s.Sound
  unleased : ∀ k, Owns key k → ∀ r, s.current k = some r → r.lease = 0
  dated : ∀ e ∈ lives, e.1 ≤ s.revision
  shows : ∀ r, s.floor ≤ r → r ≤ s.revision → Shows key (s.asOf r) (lives.liveAt r)

section
variable {key : String} {s s' : Store} {lives : Lives}

theorem Good.shows_latest (h : Good key s lives) : Shows key s.latest lives.live := by
  have := h.shows s.revision h.sound.floor_le (Int.le_refl _)
  rwa [h.sound.asOf_revision, Lives.liveAt_eq_live h.dated] at this

theorem Good.kept (h : Good key s lives) : Kept key s := ⟨h.sound, h.unleased⟩

theorem Good.leads (h : Good key s lives) (hl : s.Leads (Foreign key) s') : Good key s' lives := by
  have hrev := hl.revision_le
  refine ⟨hl.1, (h.kept.leads hl).unleased, fun e he => Int.le_trans (h.dated e he) hrev, fun r hf hr => ?_⟩
  have hfl := Int.le_trans hl.floor_le hf
  by_cases hrs : r ≤ s.revision
  · rw [hl.past hf hrs]
    exact h.shows r hfl hrs
  · rw [Lives.liveAt_eq_live fun e he => by have := h.dated e he; omega]
    exact h.shows_latest.congr_owned fun k hk =>
      hl.get?_since (fun e he hek => he (hek ▸ hk)) hf (by omega) hr

theorem Good.leads_expire (h : Good key s lives) (now : Nat) : s.Leads (Foreign key) (s.expire now) :=
  h.kept.leads_expire now

theorem Good.expire (h : Good key s lives) (now : Nat) : Good key (s.expire now) lives :=
  h.leads (h.leads_expire now)

theorem Good.leads_move {b : Backend} (h : Good key b.store lives) (now : Nat) {m : Move}
    (hm : ∀ k, Owns key k → ¬ m.Writes k) : b.store.Leads (Foreign key) (b.move now m).store :=
  h.kept.leads_move now hm

/-! ## Commits -/

theorem Good.past_commit (h : Good key s lives) (ops : List Op) {r : Int} (hf : s.floor ≤ r)
    (hr : r < (s.commit ops).revision) : Shows key ((s.commit ops).asOf r) (lives.liveAt r) := by
  have hl := Store.leads_commit h.sound ops
  have hle : r ≤ s.revision := by
    rcases Store.commit_cases h.sound ops with ⟨hrev, _⟩ | hrev <;> omega
  have hff : (s.commit ops).floor = s.floor := by
    have hst := (h.sound.stands_applyAll ops).frame
    unfold Store.commit Edit.commit
    split <;> rw [hst]
  rw [hl.past (by omega) hle]
  exact h.shows r hf hle

variable {ops : List Op}

/-- A commit after which the store shows what it should, and nothing of the value is bound to a lease. -/
structure Good.Fine (h : Good key s lives) (ops : List Op) (live : Option Live) : Prop where
  shows : Shows key (s.commit ops).latest live
  unleased : ∀ k, Owns key k → ∀ r, (s.commit ops).current k = some r → r.lease = 0

theorem Good.floor_le_of_commit (h : Good key s lives) {r : Int} (hf : (s.commit ops).floor ≤ r) :
    s.floor ≤ r := Int.le_trans (Store.leads_commit h.sound ops).floor_le hf

theorem Good.keep (h : Good key s lives) (hc : h.Fine ops lives.live) : Good key (s.commit ops) lives := by
  have hl := Store.leads_commit h.sound ops
  have hd : ∀ e ∈ lives, e.1 ≤ (s.commit ops).revision := fun e he => Int.le_trans (h.dated e he) hl.revision_le
  refine ⟨hl.1, hc.unleased, hd, fun r hf hr => ?_⟩
  by_cases he : r = (s.commit ops).revision
  · rw [he, hl.1.asOf_revision, Lives.liveAt_eq_live hd]
    exact hc.shows
  · exact h.past_commit ops (h.floor_le_of_commit hf) (by omega)

theorem Good.turn (h : Good key s lives) {live : Option Live} (hc : h.Fine ops live) :
    Good key (s.commit ops) (((s.commit ops).revision, live) :: lives) := by
  have hl := Store.leads_commit h.sound ops
  refine ⟨hl.1, hc.unleased, fun e he => ?_, fun r hf hr => ?_⟩
  · rcases List.mem_cons.1 he with rfl | he
    · exact Int.le_refl _
    · exact Int.le_trans (h.dated e he) hl.revision_le
  · by_cases he : r = (s.commit ops).revision
    · rw [he, hl.1.asOf_revision, Lives.liveAt_cons_of_le (Int.le_refl _)]
      exact hc.shows
    · rw [Lives.liveAt_cons_of_lt (by show r < (s.commit ops).revision; omega)]
      exact h.past_commit ops (h.floor_le_of_commit hf) (by omega)

end

end Keyspace.Chunked
