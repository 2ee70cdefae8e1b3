import Keyspace.Proofs.Diff.Delivery

/-!
# What frames are a diff

The form of frames, and what breaks it, is said by `Decodes` without an assembler. Frames have one verdict in it,
which is what an assembler makes of them (`decodes_iff`), and so does a receiver to which they are all sent, in
whatever order sender and receiver take their turns (`Transit.Whole.result`).
-/

namespace Keyspace

/-- A list makes a map of as many entries if no key comes twice. -/
theorem SortedMap.size_ofList_eq_iff {κ ν : Type} [KeyOrder κ] [DecidableEq κ] (l : List (κ × ν)) :
    (ofList l : SortedMap κ ν).size = l.length ↔ (l.map (·.1)).Nodup := by
  have hmem : ∀ k, k ∈ (ofList l : SortedMap κ ν).keys ↔ k ∈ l.map (·.1) := by
    intro k
    rw [mem_keys_iff, get?_ofList, Option.isSome_map, List.isSome_find?]
    simp
  rw [← length_keys]
  constructor
  · intro h
    have hsub := List.subperm_of_subset (ofList l : SortedMap κ ν).keys_nodup fun k hk => (hmem k).1 hk
    have hperm := hsub.perm_of_length_le (by rw [List.length_map, h])
    exact hperm.nodup_iff.1 (ofList l : SortedMap κ ν).keys_nodup
  · intro h
    have hperm := (List.perm_ext_iff_of_nodup (ofList l : SortedMap κ ν).keys_nodup h).2 hmem
    rw [hperm.length_eq, List.length_map]

namespace Diff

/-! ## The form of frames -/

/-- Changes that are as many as was announced of each kind, and within a kind of one key each. -/
structure Agrees (o : Overview) (cs : List Change) : Prop where
  inserts : o.inserts = cs.countP (·.kind = .insert)
  updates : o.updates = cs.countP (·.kind = .update)
  deletions : o.deletions = cs.countP (·.kind = .deletion)
  distinct : ∀ kind, ((cs.filter (·.kind = kind)).map (·.key)).Nodup

/-- The diff consists of these changes. A deletion may carry a value, which says nothing. -/
structure Consists (d : Diff) (cs : List Change) : Prop where
  inserts : ∀ k v, d.inserts.get? k = some v ↔ ⟨.insert, k, v⟩ ∈ cs
  updates : ∀ k v, d.updates.get? k = some v ↔ ⟨.update, k, v⟩ ∈ cs
  deletions : ∀ k, k ∈ d.deletions.keys ↔ ∃ v, ⟨.deletion, k, v⟩ ∈ cs

/-- The verdict on frames. Of two violations the one that comes first in the sequence is named. -/
inductive Decodes : List Frame → Except ContractError Diff → Prop
  | empty : Decodes [] (.error .firstFrameNotOverview)
  | headless (cs : List Change) (later : List Frame) :
    Decodes (.changes cs :: later) (.error .firstFrameNotOverview)
  | second (o o' : Overview) (parts : List (List Change)) (later : List Frame) (hv : Valid parts.flatten) :
    Decodes (.overview o :: (parts.map .changes ++ .overview o' :: later)) (.error .frameNotChanges)
  | invalid (o : Overview) (parts : List (List Change)) (cs : List Change) (later : List Frame)
    (hv : Valid parts.flatten) (hn : ¬ Valid cs) :
    Decodes (.overview o :: (parts.map .changes ++ .changes cs :: later)) (.error .invalidChangeType)
  | miscount (o : Overview) (parts : List (List Change)) (hv : Valid parts.flatten) (ha : ¬ Agrees o parts.flatten) :
    Decodes (.overview o :: parts.map .changes) (.error .opsMiscount)
  | whole (o : Overview) (parts : List (List Change)) (d : Diff) (hv : Valid parts.flatten)
    (ha : Agrees o parts.flatten) (hd : d.Consists parts.flatten) : Decodes (.overview o :: parts.map .changes) (.ok d)

/-! ## What agrees with an overview -/

section
variable {o : Overview} {cs : List Change}

theorem map_ofKind (kind : ChangeKind) (cs : List Change) :
    (ofKind kind cs).map (·.1) = (cs.filter (·.kind = kind)).map (·.key) := by
  simp [ofKind, Function.comp_def]

theorem length_ofKind (kind : ChangeKind) (cs : List Change) :
    (ofKind kind cs).length = cs.countP (·.kind = kind) := by
  rw [ofKind, List.length_map, List.countP_eq_length_filter]

/-- No key comes twice among the changes of a kind if they make as many entries. -/
theorem agrees_iff (hv : Valid cs) : o = counted cs ∧ o = (gathered cs).overview ↔ Agrees o cs := by
  have hsize : ∀ kind, (SortedMap.ofList (ofKind kind cs)).size = (ofKind kind cs).length ↔
      ((cs.filter (·.kind = kind)).map (·.key)).Nodup := fun kind => by
    rw [SortedMap.size_ofList_eq_iff, map_ofKind]
  have hdel : (SortedMap.ofList ((ofKind .deletion cs).map fun e => (e.1, ()))).size = (ofKind .deletion cs).length ↔
      ((cs.filter (·.kind = .deletion)).map (·.key)).Nodup := by
    rw [← List.length_map (fun e => (e.1, ())), SortedMap.size_ofList_eq_iff, List.map_map, ← map_ofKind]
    rfl
  constructor
  · rintro ⟨rfl, hg⟩
    refine ⟨length_ofKind .insert cs, length_ofKind .update cs, length_ofKind .deletion cs, fun kind => ?_⟩
    cases kind with
    | unspecified =>
      have hnone : cs.filter (·.kind = .unspecified) = [] := by simpa [Valid] using hv
      rw [hnone]
      exact List.nodup_nil
    | insert => exact (hsize .insert).1 (congrArg Overview.inserts hg).symm
    | update => exact (hsize .update).1 (congrArg Overview.updates hg).symm
    | deletion => exact hdel.1 (congrArg Overview.deletions hg).symm
  · intro h
    have ho : o = counted cs := by
      simp only [counted, length_ofKind, ← h.inserts, ← h.updates, ← h.deletions]
    refine ⟨ho, ho.trans ?_⟩
    have hi := (hsize .insert).2 (h.distinct _)
    have hu := (hsize .update).2 (h.distinct _)
    have hd := hdel.2 (h.distinct _)
    simp only [counted, overview, gathered, hi, hu, hd]

theorem Agrees.consists (h : Agrees o cs) : (gathered cs).Consists cs := by
  have hone : ∀ kind, ∀ a ∈ ofKind kind cs, ∀ b ∈ ofKind kind cs, a.1 = b.1 → a.2 = b.2 := by
    intro kind a ha b hb hab
    have hn := h.distinct kind
    rw [← map_ofKind] at hn
    rw [List.inj_on_of_nodup_map hn ha hb hab]
  refine ⟨fun k v => ?_, fun k v => ?_, fun k => ?_⟩
  · rw [← mem_ofKind (e := (k, v))]
    exact SortedMap.get?_ofList_iff (hone .insert) k v
  · rw [← mem_ofKind (e := (k, v))]
    exact SortedMap.get?_ofList_iff (hone .update) k v
  · have hu : ∀ a ∈ (ofKind .deletion cs).map (fun e => (e.1, ())), ∀ b ∈ (ofKind .deletion cs).map (fun e => (e.1, ())),
        a.1 = b.1 → a.2 = b.2 := fun _ _ _ _ _ => rfl
    have hget : ((gathered cs).deletions.get? k).isSome ↔ (k, ()) ∈ (ofKind .deletion cs).map fun e => (e.1, ()) := by
      rw [← SortedMap.get?_ofList_iff hu k (), Option.isSome_iff_exists]
      exact ⟨fun ⟨_, hx⟩ => hx, fun hx => ⟨_, hx⟩⟩
    rw [SortedMap.mem_keys_iff, hget]
    constructor
    · intro hm
      obtain ⟨e, he, hk⟩ := List.mem_map.1 hm
      cases hk
      exact ⟨e.2, mem_ofKind.1 he⟩
    · rintro ⟨v, hv⟩
      exact List.mem_map.2 ⟨(k, v), mem_ofKind.2 hv, rfl⟩

theorem Consists.unique {d e : Diff} (hd : d.Consists cs) (he : e.Consists cs) : d = e := by
  obtain ⟨dins, dupd, ddel⟩ := d
  obtain ⟨eins, eupd, edel⟩ := e
  have hins : dins = eins := SortedMap.ext_get? fun k => Option.ext fun v => (hd.inserts k v).trans (he.inserts k v).symm
  have hupd : dupd = eupd := SortedMap.ext_get? fun k => Option.ext fun v => (hd.updates k v).trans (he.updates k v).symm
  have hdel : ddel = edel := SortedMap.ext_keys fun k => (hd.deletions k).trans (he.deletions k).symm
  rw [hins, hupd, hdel]

end

/-! ## The verdict of an assembler -/

theorem Assembler.accept_of_not_valid {cs : List Change} (h : ¬ Valid cs) : ∀ a : Assembler,
    (a.accept cs).1 = .error .invalidChangeType := by
  induction cs with
  | nil => exact absurd nofun h
  | cons c cs ih =>
    intro a
    obtain ⟨kind, key, value⟩ := c
    have hcs : kind ≠ .unspecified → ¬ Valid cs := fun hk hv => h (List.forall_mem_cons.2 ⟨hk, hv⟩)
    cases kind with
    | unspecified => rfl
    | insert | update | deletion => exact ih (hcs nofun) _

/-- Frames up to the first that is another overview, or has an invalid change. -/
theorem frames_cases (fs : List Frame) : ∃ parts : List (List Change), Valid parts.flatten ∧
    (fs = parts.map .changes ∨ (∃ o later, fs = parts.map .changes ++ .overview o :: later) ∨
      ∃ cs later, ¬ Valid cs ∧ fs = parts.map .changes ++ .changes cs :: later) := by
  induction fs with
  | nil => exact ⟨[], nofun, .inl rfl⟩
  | cons f fs ih =>
    cases f with
    | overview o => exact ⟨[], nofun, .inr (.inl ⟨o, fs, rfl⟩)⟩
    | changes cs =>
      by_cases hcs : Valid cs
      · obtain ⟨parts, hv, hfs⟩ := ih
        refine ⟨cs :: parts, List.forall_mem_append.2 ⟨hcs, hv⟩, ?_⟩
        rcases hfs with rfl | ⟨o, later, rfl⟩ | ⟨ds, later, hn, rfl⟩
        · exact .inl rfl
        · exact .inr (.inl ⟨o, later, rfl⟩)
        · exact .inr (.inr ⟨ds, later, hn, rfl⟩)
      · exact ⟨[], nofun, .inr (.inr ⟨cs, fs, hcs, rfl⟩)⟩

theorem ofFrames?_append (o : Overview) {parts : List (List Change)} (hv : Valid parts.flatten) (later : List Frame) :
    ∃ a : Assembler, a.overview = some o ∧
      ofFrames? (.overview o :: (parts.map .changes ++ later)) = a.run later := by
  refine ⟨(Assembler.accept ⟨some o, .empty, ⟨0, 0, 0⟩⟩ parts.flatten).2, Assembler.overview_accept _ _, ?_⟩
  exact Assembler.run_append parts later (a := ⟨some o, .empty, ⟨0, 0, 0⟩⟩) rfl hv

theorem Decodes.eq {fs : List Frame} {r : Except ContractError Diff} (h : Decodes fs r) : ofFrames? fs = r := by
  cases h with
  | empty => rfl
  | headless cs later => rfl
  | second o o' parts later hv =>
    obtain ⟨a, ha, hrun⟩ := ofFrames?_append o hv (.overview o' :: later)
    rw [hrun]
    simp [Assembler.run, Assembler.push, ha]
  | invalid o parts cs later hv hn =>
    obtain ⟨a, ha, hrun⟩ := ofFrames?_append o hv (.changes cs :: later)
    have hpush : (a.push (.changes cs)).1 = .error .invalidChangeType := by
      simpa [Assembler.push, ha] using Assembler.accept_of_not_valid hn a
    rw [hrun, Assembler.run]
    split
    · rename_i b hb
      rw [hb] at hpush
      cases hpush
    · rename_i e b hb
      rw [hb] at hpush
      exact congrArg Except.error (Except.error.inj hpush)
  | miscount o parts hv ha => rw [ofFrames?_overview o hv, if_neg fun h => ha ((agrees_iff hv).1 h)]
  | whole o parts d hv ha hd =>
    rw [ofFrames?_overview o hv, if_pos ((agrees_iff hv).2 ha), ha.consists.unique hd]

theorem exists_decodes (fs : List Frame) : ∃ r, Decodes fs r := by
  cases fs with
  | nil => exact ⟨_, .empty⟩
  | cons f fs =>
    cases f with
    | changes cs => exact ⟨_, .headless cs fs⟩
    | overview o =>
      obtain ⟨parts, hv, rfl | ⟨o', later, rfl⟩ | ⟨cs, later, hn, rfl⟩⟩ := frames_cases fs
      · by_cases ha : Agrees o parts.flatten
        · exact ⟨_, .whole o parts _ hv ha ha.consists⟩
        · exact ⟨_, .miscount o parts hv ha⟩
      · exact ⟨_, .second o o' parts later hv⟩
      · exact ⟨_, .invalid o parts cs later hv hn⟩

theorem decodes_iff (fs : List Frame) (r : Except ContractError Diff) : ofFrames? fs = r ↔ Decodes fs r := by
  refine ⟨fun h => ?_, Decodes.eq⟩
  obtain ⟨r', hr⟩ := exists_decodes fs
  rwa [← h, hr.eq]

/-! ## The verdict of a receiver -/

namespace Transit

/-- Frames are left that will not be sent any more, and the receiver has not resolved. -/
def CutShort (t : Transit) : Prop := t.result = none ∧ t.unsent ≠ [] ∧ (t.sending = false ∨ t.closed = true)

/-- Reached by a sender that sends all, as long as there is a receiver. -/
inductive Whole (fs : List Frame) : Transit → Prop
  | start : Whole fs (start fs)
  | step {t u : Transit} (h : Whole fs t) (hs : Step t u) (hu : ¬ u.CutShort) : Whole fs u

variable {fs : List Frame} {t : Transit}

theorem Whole.reached (h : Whole fs t) : Reached fs t := by
  induction h with
  | start => exact .start
  | step _ hs _ ih => exact ih.step hs

theorem Whole.not_cutShort (h : Whole fs t) : ¬ t.CutShort := by
  cases h with
  | start => exact fun h => h.2.2.elim nofun nofun
  | step _ _ hu => exact hu

theorem Whole.result {r : Outcome Diff} (h : Whole fs t) (hr : t.result = some r) : r = Diff.receive fs := by
  induction h with
  | start => cases hr
  | step h hs hu ih =>
    obtain ⟨got, hfs, hmade⟩ := h.reached.keeps
    cases hs with
    | send | stop | close => exact ih hr
    | receive hn => exact nomatch hn.symm.trans hr
    | @refuse f a e hn hh hp =>
      cases hr
      -- A violation stands, whatever is still to come.
      rw [hn] at hmade
      rw [hh, Option.toList_some, List.append_assoc] at hfs
      rw [Diff.receive, ofFrames?, ← hfs, hmade, List.singleton_append, Assembler.run, hp]
      rfl
    | @resolve hn hh hs =>
      cases hr
      rw [hn] at hmade
      have hall : _ = [] := Classical.byContradiction fun hne => h.not_cutShort ⟨hn, hne, hs⟩
      rw [hh, hall, Option.toList_none, List.append_nil, List.append_nil] at hfs
      rw [Diff.receive, ofFrames?, ← hfs, ← List.append_nil got, hmade []]
      rfl

theorem Whole.exists_step (h : Whole fs t) (hr : t.result = none) : ∃ u, Step t u ∧ Whole fs u := by
  have hcut := h.not_cutShort
  cases hh : t.held with
  | some f =>
    rcases hp : t.assembler.push f with ⟨_ | _, a⟩
    · exact ⟨_, .refuse hr hh hp, h.step (.refuse hr hh hp) fun hc => nomatch hc.1⟩
    · exact ⟨_, .receive hr hh hp, h.step (.receive hr hh hp) hcut⟩
  | none =>
    cases hu : t.unsent with
    | nil =>
      cases hs : t.sending with
      | false => exact ⟨_, .resolve hr hh (.inl hs), h.step (.resolve hr hh (.inl hs)) fun hc => nomatch hc.1⟩
      | true => exact ⟨_, .stop hs, h.step (.stop hs) fun hc => hc.2.1 hu⟩
    | cons f later =>
      have hs : t.sending = true := by
        cases hs : t.sending with
        | true => rfl
        | false => exact absurd ⟨hr, by simp [hu], .inl hs⟩ hcut
      have hc : t.closed = false := by
        cases hc : t.closed with
        | false => rfl
        | true => exact absurd ⟨hr, by simp [hu], .inr hc⟩ hcut
      exact ⟨_, .send hs hc hh hu, h.step (.send hs hc hh hu) fun hn => hn.2.2.elim
        (fun hf => nomatch hs.symm.trans hf) fun ht => nomatch hc.symm.trans ht⟩

end Transit

/-- Frames are decoded to a diff if they have its form, and else refused for the first thing that breaks it. A receiver
comes to the same with the frames that it is sent, and does not wait for ever. -/
theorem decoder_exact (fs : List Frame) :
    (∀ r, ofFrames? fs = r ↔ Decodes fs r) ∧
      (WellFounded fun u t => Transit.Step t u) ∧
      ∀ t, Transit.Whole fs t →
        (t.result = none → ∃ u, Transit.Step t u ∧ Transit.Whole fs u) ∧
        ∀ r, t.result = some r → r = (ofFrames? fs).mapError .contract :=
  ⟨decodes_iff fs, Subrelation.wf Transit.Step.load_lt (measure Transit.load).wf,
    fun _ h => ⟨h.exists_step, fun _ hr => h.result hr⟩⟩

/-- An insert that comes twice does not stand for one that is missing, and of an invalid change and an overview in its
wrong place the first is named. -/
theorem decoder_exact_offset :
    let twice : List Frame := [.overview ⟨2, 0, 0⟩, .changes [⟨.insert, "a", [1]⟩, ⟨.insert, "a", [2]⟩]]
    let broken : List Frame :=
      [.overview ⟨0, 0, 1⟩, .changes [⟨.deletion, "a", []⟩, ⟨.unspecified, "b", []⟩], .overview ⟨0, 0, 1⟩]
    Decodes twice (.error .opsMiscount) ∧ Decodes broken (.error .invalidChangeType) ∧
      ∃ t, Transit.Whole twice t ∧ t.result = none ∧ ∃ u, Transit.Step t u ∧ Transit.Whole twice u :=
  ⟨((decoder_exact _).1 _).1 (by rfl), ((decoder_exact _).1 _).1 (by rfl), _, .start, rfl,
    ((decoder_exact _).2.2 _ .start).1 rfl⟩

end Diff

end Keyspace
