import Keyspace.Proofs.Diff.Grammar

/-!
# Frames that are refused

A frame that comes where it may not leaves an assembler as it is. A frame of changes with an invalid one leaves what
the changes before it make of the assembler (`Refuses`), and from then on all goes as if these had come in a frame of
their own (`refused_frame`).
-/

namespace Keyspace.Diff

theorem exists_invalid {cs : List Change} (h : ¬ Valid cs) :
    ∃ kept c rest, cs = kept ++ c :: rest ∧ Valid kept ∧ c.kind = .unspecified := by
  induction cs with
  | nil => exact absurd nofun h
  | cons c cs ih =>
    by_cases hc : c.kind = .unspecified
    · exact ⟨[], c, cs, rfl, nofun, hc⟩
    · obtain ⟨kept, d, rest, rfl, hv, hd⟩ := ih fun hv => h (List.forall_mem_cons.2 ⟨hc, hv⟩)
      exact ⟨c :: kept, d, rest, rfl, List.forall_mem_cons.2 ⟨hc, hv⟩, hd⟩

namespace Assembler

variable {a : Assembler} {f : Frame} {e : ContractError} {cs kept : List Change}

/-! ## Frames one after the other -/

theorem pushAll_append (fs gs : List Frame) : ∀ a : Assembler, a.pushAll (fs ++ gs) =
    ((a.pushAll fs).1 ++ ((a.pushAll fs).2.pushAll gs).1, ((a.pushAll fs).2.pushAll gs).2) := by
  induction fs with
  | nil => exact fun _ => rfl
  | cons f fs ih =>
    intro a
    simp only [List.cons_append, pushAll, ih]

theorem length_pushAll (fs : List Frame) : ∀ a : Assembler, (a.pushAll fs).1.length = fs.length := by
  induction fs with
  | nil => exact fun _ => rfl
  | cons f fs ih => exact fun a => congrArg (· + 1) (ih (a.push f).2)

/-! ## Changes added -/

/-- These changes put in, and counted. -/
def adding (a : Assembler) (cs : List Change) : Assembler where
  overview := a.overview
  diff :=
    { inserts := a.diff.inserts.insertAll (ofKind .insert cs)
      updates := a.diff.updates.insertAll (ofKind .update cs)
      deletions := SortedMap.insertAll a.diff.deletions ((ofKind .deletion cs).map fun e => (e.1, ())) }
  received :=
    { inserts := a.received.inserts + (counted cs).inserts
      updates := a.received.updates + (counted cs).updates
      deletions := a.received.deletions + (counted cs).deletions }

theorem accept_eq_adding (hv : Valid cs) (a : Assembler) : a.accept cs = (.ok (), a.adding cs) := accept_of_valid hv a

/-- The counts tell that changes were added. -/
theorem adding_eq_self_iff (hv : Valid cs) : a.adding cs = a ↔ cs = [] := by
  constructor
  · intro h
    have hi : a.received.inserts + (counted cs).inserts = a.received.inserts := congrArg (·.received.inserts) h
    have hu : a.received.updates + (counted cs).updates = a.received.updates := congrArg (·.received.updates) h
    have hd : a.received.deletions + (counted cs).deletions = a.received.deletions :=
      congrArg (·.received.deletions) h
    have hlen := length_of_counted hv
    exact List.length_eq_zero_iff.1 (by omega)
  · rintro rfl
    rfl

theorem push_changes (ha : a.overview.isSome) (cs : List Change) : a.push (.changes cs) = a.accept cs := by
  obtain ⟨o, ho⟩ := Option.isSome_iff_exists.1 ha
  simp only [push, ho]

/-! ## What is left of a frame -/

/-- Why a frame is refused, and which of its changes are kept. -/
inductive Refuses (a : Assembler) : Frame → ContractError → List Change → Prop
  | headless (cs : List Change) (ha : a.overview = none) : Refuses a (.changes cs) .firstFrameNotOverview []
  | second (o : Overview) (ha : a.overview.isSome) : Refuses a (.overview o) .frameNotChanges []
  | invalid (cs : List Change) (c : Change) (rest : List Change) (ha : a.overview.isSome) (hv : Valid cs)
    (hc : c.kind = .unspecified) : Refuses a (.changes (cs ++ c :: rest)) .invalidChangeType cs

theorem refuses_of_push (h : (a.push f).1 = .error e) : ∃ kept, a.Refuses f e kept := by
  cases ho : a.overview with
  | none =>
    cases f with
    | overview o => simp [push, ho] at h
    | changes cs =>
      simp only [push, ho] at h
      cases h
      exact ⟨[], .headless cs ho⟩
  | some o =>
    have ha : a.overview.isSome := ho ▸ rfl
    cases f with
    | overview o' =>
      simp only [push, ho] at h
      cases h
      exact ⟨[], .second o' ha⟩
    | changes cs =>
      rw [push_changes ha] at h
      by_cases hv : Valid cs
      · rw [accept_eq_adding hv] at h
        cases h
      · obtain ⟨kept, c, rest, rfl, hk, hc⟩ := exists_invalid hv
        rw [accept_of_not_valid hv] at h
        cases h
        exact ⟨kept, .invalid kept c rest ha hk hc⟩

theorem Refuses.valid (h : a.Refuses f e kept) : Valid kept := by
  cases h with
  | headless | second => exact nofun
  | invalid _ _ _ _ hv => exact hv

theorem Refuses.push (h : a.Refuses f e kept) : a.push f = (.error e, a.adding kept) := by
  cases h with
  | headless cs ha => simp only [Assembler.push, ha]; rfl
  | second o ha =>
    obtain ⟨o', ho⟩ := Option.isSome_iff_exists.1 ha
    simp only [Assembler.push, ho]
    rfl
  | invalid cs c rest ha hv hc =>
    rw [push_changes ha, accept_append kept (c :: rest) (accept_eq_adding hv a), accept, hc]

/-- The frame that could stand for the refused one, if anything of it was kept. -/
def standIn (kept : List Change) : List Frame := if kept = [] then [] else [.changes kept]

theorem Refuses.pushAll_standIn (h : a.Refuses f e kept) :
    a.pushAll (standIn kept) = ((standIn kept).map fun _ => .ok (), a.adding kept) := by
  by_cases hk : kept = []
  · rw [standIn, if_pos hk, hk]
    rfl
  · cases h with
    | headless | second => exact absurd rfl hk
    | invalid cs c rest ha hv hc =>
      rw [standIn, if_neg hk]
      simp only [pushAll, push_changes ha, accept_eq_adding hv, List.map_cons, List.map_nil]

/-- What is kept of a refused frame, and that nothing else of it is ever seen again: the frames after it are answered,
and the assembler is left, as if the kept changes alone had come. -/
theorem refused_frame {fs : List Frame} (h : ((start.pushAll fs).2.push f).1 = .error e) :
    ∃ kept, (start.pushAll fs).2.Refuses f e kept ∧
      ((start.pushAll fs).2.push f).2 = (start.pushAll fs).2.adding kept ∧
      (((start.pushAll fs).2.push f).2 = (start.pushAll fs).2 ↔ kept = []) ∧
      ∀ later, ∃ before after left, before.length = fs.length ∧
        start.pushAll (fs ++ f :: later) = (before ++ .error e :: after, left) ∧
        start.pushAll (fs ++ standIn kept ++ later) =
          (before ++ (standIn kept).map (fun _ => .ok ()) ++ after, left) := by
  obtain ⟨kept, hk⟩ := refuses_of_push h
  have hpush := hk.push
  refine ⟨kept, hk, by rw [hpush], by rw [hpush, adding_eq_self_iff hk.valid], fun later => ?_⟩
  refine ⟨(start.pushAll fs).1, (((start.pushAll fs).2.adding kept).pushAll later).1,
    (((start.pushAll fs).2.adding kept).pushAll later).2, length_pushAll fs start, ?_, ?_⟩
  · rw [pushAll_append, pushAll, hpush]
  · rw [pushAll_append, pushAll_append, hk.pushAll_standIn]

/-- The first of two changes is kept, and then makes up for the one that was announced. -/
theorem refused_frame_half :
    let fs : List Frame := [.overview ⟨1, 0, 0⟩]
    let f : Frame := .changes [⟨.insert, "a", [49]⟩, ⟨.unspecified, "b", []⟩]
    ((start.pushAll fs).2.push f).1 = .error .invalidChangeType ∧
      ∃ kept, (start.pushAll fs).2.Refuses f .invalidChangeType kept ∧ kept ≠ [] ∧
        ((start.pushAll fs).2.push f).2.finish = .ok ⟨.ofList [("a", [49])], .empty, .empty⟩ := by
  intro fs f
  have h : ((start.pushAll fs).2.push f).1 = .error .invalidChangeType := rfl
  obtain ⟨kept, hk, -, hsame, -⟩ := refused_frame h
  exact ⟨h, kept, hk, fun hnil => absurd (congrArg received (hsame.2 hnil)) (by decide), by decide +kernel⟩

theorem not_unchanged_by_refusal : ¬ ∀ (fs : List Frame) (f : Frame) (e : ContractError) (later : List Frame),
    ((start.pushAll fs).2.push f).1 = .error e →
      (start.pushAll (fs ++ f :: later)).2.finish = (start.pushAll (fs ++ later)).2.finish := by
  intro h
  have hfinish := h [.overview ⟨1, 0, 0⟩] (.changes [⟨.insert, "a", [49]⟩, ⟨.unspecified, "b", []⟩]) .invalidChangeType
    [] rfl
  exact absurd hfinish (by decide +kernel)

end Assembler

end Keyspace.Diff
