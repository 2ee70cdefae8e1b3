import Keyspace.Proofs.Diff.Framing
import Mathlib.Data.List.Nodup
import Mathlib.Data.List.Perm.Subperm
import Mathlib.Logic.Relation

/-!
# Frames that are lost, or come twice

Of the frames of a diff an assembler makes that diff or none. A frame that is missing leaves a change out, and
one that comes again is counted again, so the overview agrees with what came only if every frame did, once
(`ofFrames?_eq_ok_iff`). A sender may be stopped at any moment, and a channel closed: what the receiver was given
is then a beginning of the frames (`Transit.Keeps`), and it makes the diff only of all of them.
-/

namespace Keyspace

/-- Entries of a map that are of as many keys as the map has are all that it has. -/
theorem SortedMap.subset_of_size_ofList {κ ν : Type} [KeyOrder κ] [DecidableEq κ] {m : SortedMap κ ν}
    {l : List (κ × ν)} (h : l ⊆ m.entries) (hs : (ofList l : SortedMap κ ν).size = m.size) : m.entries ⊆ l := by
  have hmem : ∀ e, e ∈ (ofList l : SortedMap κ ν).entries ↔ e ∈ l := fun e => by
    rw [← get?_eq_some_iff, get?_ofList_of_subset h]
  have hsub : (ofList l : SortedMap κ ν).entries ⊆ m.entries := fun e he => h ((hmem e).1 he)
  have hperm := (List.subperm_of_subset (ofList l).entries_nodup hsub).perm_of_length_le (Nat.le_of_eq hs.symm)
  exact fun e he => (hmem e).1 (hperm.mem_iff.2 he)

namespace Diff

/-! ## Parts of a list without repetitions -/

theorem nodup_of_nodup_flatten {α : Type} {parts : List (List α)} (h : parts.flatten.Nodup)
    (hne : ∀ p ∈ parts, p ≠ []) : parts.Nodup := by
  refine (List.nodup_flatten.1 h).2.imp_of_mem fun {p q} hp _ hd hpq => ?_
  obtain ⟨c, hc⟩ := List.exists_mem_of_ne_nil p (hne p hp)
  exact hd hc (hpq ▸ hc)

/-- Parts of a list without repetitions are known by what they hold. -/
theorem perm_of_flatten {α : Type} {parts got : List (List α)} (hparts : parts.flatten.Nodup)
    (hne : ∀ p ∈ parts, p ≠ []) (hsub : got ⊆ parts) (h : got.flatten.Perm parts.flatten) : got.Perm parts := by
  have hgot : got.Nodup := nodup_of_nodup_flatten (h.nodup_iff.2 hparts) fun p hp => hne p (hsub hp)
  have hnodup := nodup_of_nodup_flatten hparts hne
  refine (List.perm_ext_iff_of_nodup hgot hnodup).2 fun p => ⟨fun hp => hsub hp, fun hp => ?_⟩
  obtain ⟨c, hc⟩ := List.exists_mem_of_ne_nil p (hne p hp)
  obtain ⟨q, hq, hcq⟩ := List.mem_flatten.1 (h.mem_iff.2 (List.mem_flatten.2 ⟨p, hp, hc⟩))
  -- The part that brought `c` is the one that holds it.
  have hpq : p = q := by
    have : Std.Symm (List.Disjoint (α := α)) := ⟨fun _ _ hd _ hq hp => hd hp hq⟩
    apply Classical.byContradiction
    intro hpq
    exact (List.nodup_flatten.1 hparts).2.forall hp (hsub hq) hpq hc hcq
  exact hpq ▸ hq

theorem perm_iff_forall_count {α : Type} [DecidableEq α] {l m : List α} (h : l ⊆ m) (hm : m.Nodup) :
    l.Perm m ↔ ∀ a ∈ m, l.count a = 1 := by
  constructor
  · exact fun hp a ha => by rw [hp.count_eq, List.count_eq_one_of_mem hm ha]
  · refine fun hc => List.perm_iff_count.2 fun a => ?_
    by_cases ha : a ∈ m
    · rw [hc a ha, List.count_eq_one_of_mem hm ha]
    · rw [List.count_eq_zero_of_not_mem ha, List.count_eq_zero_of_not_mem fun hl => ha (h hl)]

/-! ## What arrives -/

theorem nodup_changes (d : Diff) : d.changes.Nodup := by
  have hmap : ∀ (kind : ChangeKind) (m : ValueMap),
      (m.entries.map fun e => (⟨kind, e.1, e.2⟩ : Change)).Nodup := by
    intro kind m
    refine List.Nodup.map (fun a b hab => ?_) m.entries_nodup
    injection hab with _ hk hv
    exact Prod.ext hk hv
  have hdel : (d.deletions.keys.map fun k => (⟨.deletion, k, []⟩ : Change)).Nodup :=
    List.Nodup.map (fun a b hab => by injection hab) (SortedMap.keys_nodup d.deletions)
  refine List.Nodup.append (List.Nodup.append (hmap _ _) (hmap _ _) ?_) hdel ?_
  · intro c hi hu
    obtain ⟨_, _, rfl⟩ := List.mem_map.1 hi
    simp at hu
  · intro c hc hd
    obtain ⟨_, _, rfl⟩ := List.mem_map.1 hd
    simp at hc

/-- Changes of a diff that agree with its overview, in number and in keys, are all its changes. -/
theorem perm_changes {d : Diff} {cs : List Change} (h : cs ⊆ d.changes) (hc : d.overview = counted cs)
    (hg : d.overview = (gathered cs).overview) : cs.Perm d.changes := by
  have hins : ofKind .insert cs ⊆ d.inserts.entries := fun e he => by
    simpa using mem_changes.1 (h (mem_ofKind.1 he))
  have hupd : ofKind .update cs ⊆ d.updates.entries := fun e he => by
    simpa using mem_changes.1 (h (mem_ofKind.1 he))
  have hdel : ∀ e ∈ ofKind .deletion cs, e.1 ∈ d.deletions.keys ∧ e.2 = [] := fun e he => by
    simpa using mem_changes.1 (h (mem_ofKind.1 he))
  have hkeys : (ofKind .deletion cs).map (fun e => (e.1, ())) ⊆ SortedMap.entries d.deletions := by
    intro e he
    obtain ⟨c, hc, rfl⟩ := List.mem_map.1 he
    obtain ⟨a, ha, hk⟩ := List.mem_map.1 (hdel c hc).1
    exact hk ▸ ha
  -- By the keys no change is missing, so by the number none came twice.
  have hall : d.changes ⊆ cs := by
    intro c hc
    obtain ⟨kind, key, value⟩ := c
    rcases mem_changes.1 hc with ⟨hk, he⟩ | ⟨hk, he⟩ | ⟨hk, he, hv⟩
    · cases hk
      exact mem_ofKind.1 (SortedMap.subset_of_size_ofList hins (congrArg Overview.inserts hg).symm he)
    · cases hk
      exact mem_ofKind.1 (SortedMap.subset_of_size_ofList hupd (congrArg Overview.updates hg).symm he)
    · cases hk
      cases hv
      obtain ⟨a, ha, rfl⟩ := List.mem_map.1 he
      obtain ⟨e, hm, rfl⟩ :=
        List.mem_map.1 (SortedMap.subset_of_size_ofList hkeys (congrArg Overview.deletions hg).symm ha)
      have hmem := mem_ofKind.1 hm
      rwa [(hdel e hm).2] at hmem
  have hlen : cs.length = d.changes.length := by
    rw [length_of_counted (valid_of_subset h), ← hc, length_of_counted (valid_of_subset (List.Subset.refl d.changes)),
      counted_of_perm (List.Perm.refl _)]
  exact ((List.subperm_of_subset d.nodup_changes hall).perm_of_length_le (Nat.le_of_eq hlen)).symm

section
variable (d : Diff) (limit : Nat)

theorem nodup_pack : (pack limit [] d.changes).flatten.Nodup := by
  rw [flatten_pack_nil]
  exact d.nodup_changes

theorem nodup_frames : (d.frames limit).Nodup := by
  refine List.nodup_cons.2 ⟨by simp, List.Nodup.map (fun a b h => Frame.changes.inj h) ?_⟩
  exact nodup_of_nodup_flatten (d.nodup_pack limit) (ne_nil_of_mem_pack limit d.changes [])

end

section
variable {d : Diff} {limit : Nat} {fs : List Frame} (h : fs ⊆ d.frames limit)
include h

theorem exists_of_ofFrames? {e : Diff} (hok : ofFrames? fs = .ok e) :
    ∃ parts, fs = .overview d.overview :: parts.map .changes ∧ parts ⊆ pack limit [] d.changes := by
  obtain ⟨o, parts, rfl⟩ := eq_of_ofFrames? hok
  obtain ⟨ho, hparts⟩ := List.cons_subset.1 h
  have ho : o = d.overview := by simpa [frames] using ho
  refine ⟨parts, by rw [ho], fun p hp => ?_⟩
  simpa [frames] using hparts (List.mem_map_of_mem hp)

/-- Frames of a diff make that diff if they are all there, each once, with the overview first; else they make
none. -/
theorem ofFrames?_eq_ok_iff (e : Diff) :
    ofFrames? fs = .ok e ↔ e = d ∧ fs.head? = some (.overview d.overview) ∧ fs.Perm (d.frames limit) := by
  constructor
  · intro hok
    obtain ⟨parts, rfl, hsub⟩ := exists_of_ofFrames? h hok
    have hcs : parts.flatten ⊆ d.changes := fun c hc => by
      obtain ⟨p, hp, hc⟩ := List.mem_flatten.1 hc
      rw [← flatten_pack_nil limit d.changes]
      exact List.mem_flatten.2 ⟨p, hsub hp, hc⟩
    rw [ofFrames?_overview _ (valid_of_subset hcs)] at hok
    split at hok
    · rename_i hagree
      have hp := perm_changes hcs hagree.1 hagree.2
      rw [gathered_of_perm hp] at hok
      cases hok
      refine ⟨rfl, rfl, .cons _ (List.Perm.map _ ?_)⟩
      refine perm_of_flatten (nodup_pack _ limit) (ne_nil_of_mem_pack limit _ []) hsub ?_
      rwa [flatten_pack_nil]
    · cases hok
  · rintro ⟨rfl, hhead, hperm⟩
    cases fs with
    | nil => cases hhead
    | cons f fs =>
      cases hhead
      obtain ⟨parts, rfl, hparts⟩ : Relation.Comp (· = List.map .changes ·) List.Perm fs (pack limit [] e.changes) :=
        List.eq_map_comp_perm Frame.changes ▸ (List.perm_cons _).1 hperm
      refine ofFrames?_of_perm (hparts.flatten.trans (.of_eq ?_))
      rw [flatten_pack_nil]

end

/-! ## Transport -/

/-- Frames on their way to a receiver, through a channel that holds one at a time. -/
structure Transit where
  unsent : List Frame
  sending : Bool
  held : Option Frame
  closed : Bool
  assembler : Assembler
  result : Option (Outcome Diff)

namespace Transit

def start (fs : List Frame) : Transit := ⟨fs, true, none, false, .start, none⟩

inductive Step : Transit → Transit → Prop
  | send {t : Transit} {f : Frame} {fs : List Frame} (hs : t.sending = true) (hc : t.closed = false)
    (hh : t.held = none) (hu : t.unsent = f :: fs) : Step t { t with unsent := fs, held := some f }
  /-- The sender has sent all, or is cancelled, or cannot send. -/
  | stop {t : Transit} (hs : t.sending = true) : Step t { t with sending := false }
  | close {t : Transit} (hc : t.closed = false) : Step t { t with closed := true }
  | receive {t : Transit} {f : Frame} {a : Assembler} (hr : t.result = none) (hh : t.held = some f)
    (hp : t.assembler.push f = (.ok (), a)) : Step t { t with held := none, assembler := a }
  | refuse {t : Transit} {f : Frame} {a : Assembler} {e : ContractError} (hr : t.result = none)
    (hh : t.held = some f) (hp : t.assembler.push f = (.error e, a)) :
    Step t { t with held := none, closed := true, result := some (.error (.contract e)) }
  | resolve {t : Transit} (hr : t.result = none) (hh : t.held = none) (hs : t.sending = false ∨ t.closed = true) :
    Step t { t with closed := true, result := some (t.assembler.finish.mapError .contract) }

inductive Reached (fs : List Frame) : Transit → Prop
  | start : Reached fs (start fs)
  | step {t u : Transit} (h : Reached fs t) (hs : Step t u) : Reached fs u

/-- What the receiver was given is a beginning of the frames, and it has made of it what an assembler makes. -/
def Keeps (fs : List Frame) (t : Transit) : Prop :=
  ∃ got, got ++ t.held.toList ++ t.unsent = fs ∧
    match t.result with
    | none => ∀ rest, Assembler.start.run (got ++ rest) = t.assembler.run rest
    | some r => r = Diff.receive got

theorem Step.keeps {fs : List Frame} {t u : Transit} (hs : Step t u) (h : Keeps fs t) : Keeps fs u := by
  obtain ⟨got, hfs, hmade⟩ := h
  cases hs with
  | send hs hc hh hu => exact ⟨got, by simpa [hh, hu] using hfs, hmade⟩
  | stop hs => exact ⟨got, hfs, hmade⟩
  | close hc => exact ⟨got, hfs, hmade⟩
  | @receive f a hr hh hp =>
    rw [hr] at hmade
    refine ⟨got ++ [f], by simpa [hh] using hfs, ?_⟩
    simp only [hr]
    intro rest
    rw [List.append_assoc, hmade, List.singleton_append, Assembler.run, hp]
  | @refuse f a e hr hh hp =>
    rw [hr] at hmade
    refine ⟨got ++ [f], by simpa [hh] using hfs, ?_⟩
    simp only [Diff.receive, ofFrames?, hmade, Assembler.run, hp]
    rfl
  | resolve hr hh hs =>
    rw [hr] at hmade
    have hmade := hmade []
    rw [List.append_nil] at hmade
    exact ⟨got, hfs, by simp only [Diff.receive, ofFrames?, hmade, Assembler.run]⟩

theorem Reached.keeps {fs : List Frame} {t : Transit} (h : Reached fs t) : Keeps fs t := by
  induction h with
  | start => exact ⟨[], rfl, fun _ => rfl⟩
  | step _ hs ih => exact hs.keeps ih

theorem exists_step {t : Transit} (hr : t.result = none) : ∃ u, Step t u := by
  cases hh : t.held with
  | some f =>
    rcases hp : t.assembler.push f with ⟨_ | _, a⟩
    · exact ⟨_, .refuse hr hh hp⟩
    · exact ⟨_, .receive hr hh hp⟩
  | none =>
    cases hs : t.sending with
    | false => exact ⟨_, .resolve hr hh (.inl hs)⟩
    | true => exact ⟨_, .stop hs⟩

/-- How many steps are left at most. -/
def load (t : Transit) : Nat :=
  2 * t.unsent.length + t.held.toList.length + t.sending.toNat + (!t.closed).toNat + t.result.isNone.toNat

theorem Step.load_lt {t u : Transit} (hs : Step t u) : u.load < t.load := by
  cases hs with
  | send hs hc hh hu =>
    simp only [load, hh, hu, List.length_cons, Option.toList_some, Option.toList_none, List.length_nil]
    omega
  | stop hs => simp [load, hs]
  | close hc => simp [load, hc]
  | receive hr hh hp => simp [load, hh]
  | refuse hr hh hp =>
    simp only [load, hr, hh, Option.toList_some, Option.toList_none, List.length_singleton, List.length_nil,
      Option.isNone_none, Option.isNone_some, Bool.not_true, Bool.toNat_true, Bool.toNat_false]
    omega
  | resolve hr hh hs =>
    simp only [load, hr, Option.isNone_none, Option.isNone_some, Bool.not_true, Bool.toNat_true, Bool.toNat_false]
    omega

end Transit

section
variable (d : Diff) (limit : Nat)

theorem transfer_take (n : Nat) :
    (transfer d limit (some n) = .ok d ∧ (d.frames limit).length ≤ n) ∨
      ((∃ e, transfer d limit (some n) = .error (.contract e)) ∧ n < (d.frames limit).length) := by
  have hsub : (d.frames limit).take n ⊆ d.frames limit := List.take_subset _ _
  show (receive _ = _ ∧ _) ∨ ((∃ e, receive _ = _) ∧ _)
  cases hr : ofFrames? ((d.frames limit).take n) with
  | ok e =>
    obtain ⟨rfl, -, hperm⟩ := (ofFrames?_eq_ok_iff hsub e).1 hr
    have hlen := hperm.length_eq
    rw [List.length_take] at hlen
    exact .inl ⟨by rw [receive, hr]; rfl, by omega⟩
  | error e =>
    refine .inr ⟨⟨e, by rw [receive, hr]; rfl⟩, ?_⟩
    apply Nat.lt_of_not_le
    intro hn
    rw [List.take_of_length_le hn, (frames_round_trip d limit).1] at hr
    cases hr

/-- Frames of a diff, however many are lost, repeated or out of order, make that diff or none: only all of them, each
once and with the overview first, make it. A receiver resolves, wherever the sender stops and the channel closes, with
the diff if it was given every frame, and with an error if not. -/
theorem frames_whole_or_none :
    (∀ fs : List Frame, (∀ f ∈ fs, f ∈ d.frames limit) → ∀ e, ofFrames? fs = .ok e ↔
      e = d ∧ fs.head? = some (.overview d.overview) ∧ ∀ f ∈ d.frames limit, fs.count f = 1) ∧
    (WellFounded fun u t => Transit.Step t u) ∧
    ∀ t, Transit.Reached (d.frames limit) t →
      (t.result = none → ∃ u, Transit.Step t u) ∧
      ∀ r, t.result = some r → ∃ n, r = transfer d limit (some n) ∧
        t.held.toList ++ t.unsent = (d.frames limit).drop n ∧
        (r = .ok d ∧ n = (d.frames limit).length ∨
          (∃ e, r = .error (.contract e)) ∧ n < (d.frames limit).length) := by
  refine ⟨fun fs hfs e => ?_, ?_, fun t ht => ⟨Transit.exists_step, fun r hr => ?_⟩⟩
  · rw [ofFrames?_eq_ok_iff (show fs ⊆ d.frames limit from hfs) e]
    refine and_congr_right fun _ => and_congr_right fun _ => ?_
    exact perm_iff_forall_count hfs (d.nodup_frames limit)
  · exact Subrelation.wf Transit.Step.load_lt (measure Transit.load).wf
  · obtain ⟨got, hfs, hmade⟩ := ht.keeps
    rw [hr] at hmade
    rw [List.append_assoc] at hfs
    have htake : (d.frames limit).take got.length = got := by rw [← hfs, List.take_left]
    have hlen : got.length ≤ (d.frames limit).length := by rw [← hfs, List.length_append]; omega
    have hr : r = transfer d limit (some got.length) := by
      rw [hmade, transfer, htake]
    refine ⟨got.length, hr, by rw [← hfs, List.drop_left], ?_⟩
    rw [hr]
    refine (transfer_take d limit got.length).imp_left fun h => ⟨h.1, Nat.le_antisymm hlen h.2⟩

end

/-- A frame that comes twice does not stand for one that is lost, and a sender that is stopped at once sends no diff. -/
theorem frames_whole_or_none_two_inserts :
    let d : Diff := ⟨.ofList [("a", [1]), ("b", [1])], .empty, .empty⟩
    (∀ e, ofFrames? [.overview ⟨2, 0, 0⟩, .changes [⟨.insert, "b", [1]⟩], .changes [⟨.insert, "b", [1]⟩]] ≠ .ok e) ∧
      ∃ t r, Transit.Reached (d.frames 1) t ∧ t.result = some r ∧ ∃ e, r = .error (.contract e) := by
  intro d
  constructor
  · intro e he
    have hcount := ((frames_whole_or_none d 1).1 _ (by decide) e).1 he
    exact absurd (hcount.2.2 (.changes [⟨.insert, "a", [1]⟩]) (by decide)) (by decide)
  · have hstop : Transit.Reached (d.frames 1) { Transit.start (d.frames 1) with sending := false } :=
      .step .start (.stop rfl)
    have hend := hstop.step (.resolve rfl rfl (.inl rfl))
    refine ⟨_, _, hend, rfl, ?_⟩
    obtain ⟨n, -, -, ⟨hok, -⟩ | ⟨he, -⟩⟩ := ((frames_whole_or_none d 1).2.2 _ hend).2 _ rfl
    · cases hok
    · exact he

end Diff

end Keyspace
