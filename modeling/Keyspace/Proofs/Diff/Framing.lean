import Keyspace.Diff.Frame
import Keyspace.SortedMap.Lemmas
import Mathlib.Algebra.GroupWithZero.Nat
import Mathlib.Data.List.Chain

/-!
# Frames of a diff

Packing cuts a list of changes into parts, each closed only before a change that would not fit
(`full_pack`). What an assembler makes of an overview and parts depends on the changes in them alone
(`ofFrames?_overview`), and changes of one key in each kind may come in any order (`ofFrames?_of_perm`),
so frames give back the diff that was framed (`frames_round_trip`).
-/

namespace Keyspace.Diff

/-! ## Packing -/

theorem totalSize_eq_sum (cs : List Change) : totalSize cs = (cs.map Change.size).sum := by
  induction cs with
  | nil => rfl
  | cons c cs ih =>
    rw [List.map_cons, List.sum_cons, ← ih]
    rfl

section
variable (limit : Nat)

theorem flatten_pack (cs : List Change) : ∀ held, (pack limit held cs).flatten = held ++ cs := by
  induction cs with
  | nil =>
    intro held
    cases held <;> simp [pack]
  | cons c cs ih =>
    intro held
    rw [pack]
    split
    · rw [List.flatten_cons, ih]
      rfl
    · rw [ih, List.append_assoc]
      rfl

theorem flatten_pack_nil (cs : List Change) : (pack limit [] cs).flatten = cs := flatten_pack limit cs []

theorem ne_nil_of_mem_pack (cs : List Change) : ∀ held, ∀ p ∈ pack limit held cs, p ≠ [] := by
  induction cs with
  | nil =>
    intro held p hp
    cases held with
    | nil => simp [pack] at hp
    | cons c held =>
      simp only [pack, List.isEmpty_cons, Bool.false_eq_true, if_false, List.mem_singleton] at hp
      simp [hp]
  | cons c cs ih =>
    intro held p hp
    rw [pack] at hp
    split at hp
    · rename_i hc
      rcases List.mem_cons.1 hp with rfl | hp
      · cases p with
        | nil => simp at hc
        | cons d p => simp
      · exact ih _ p hp
    · exact ih _ p hp

theorem bounded_pack (cs : List Change) : ∀ held, totalSize held ≤ limit ∨ held.length ≤ 1 →
    ∀ p ∈ pack limit held cs, totalSize p ≤ limit ∨ p.length ≤ 1 := by
  induction cs with
  | nil =>
    intro held h p hp
    cases held with
    | nil => simp [pack] at hp
    | cons c held =>
      simp only [pack, List.isEmpty_cons, Bool.false_eq_true, if_false, List.mem_singleton] at hp
      rwa [hp]
  | cons c cs ih =>
    intro held h p hp
    rw [pack] at hp
    split at hp
    · rcases List.mem_cons.1 hp with rfl | hp
      · exact h
      · exact ih [c] (.inr (Nat.le_refl 1)) p hp
    · rename_i hc
      refine ih _ ?_ p hp
      cases held with
      | nil => exact .inr (Nat.le_refl 1)
      | cons d held =>
        simp only [List.isEmpty_cons, Bool.not_false, Bool.true_and, decide_eq_true_eq] at hc
        left
        simp only [totalSize_eq_sum, List.map_append, List.sum_append] at hc ⊢
        simp only [List.map_cons, List.map_nil, List.sum_cons, List.sum_nil] at hc ⊢
        omega

theorem head?_pack (cs : List Change) : ∀ c held, ∀ p ∈ (pack limit (c :: held) cs).head?, p.head? = some c := by
  induction cs with
  | nil =>
    intro c held p hp
    simp only [pack, List.isEmpty_cons, Bool.false_eq_true, if_false, List.head?_cons, Option.mem_def,
      Option.some.injEq] at hp
    simp [← hp]
  | cons d cs ih =>
    intro c held p hp
    rw [pack] at hp
    split at hp
    · cases hp
      rfl
    · exact ih c (held ++ [d]) p hp

/-- No part could have taken the first change of the part after it. -/
theorem full_pack (cs : List Change) : ∀ held,
    (pack limit held cs).IsChain fun p q => ∀ c ∈ q.head?, limit < totalSize p + c.size := by
  induction cs with
  | nil =>
    intro held
    rw [pack]
    split
    · exact .nil
    · exact .singleton _
  | cons c cs ih =>
    intro held
    rw [pack]
    split
    · rename_i hc
      refine List.isChain_cons.2 ⟨fun q hq d hd => ?_, ih _⟩
      rw [head?_pack limit cs c [] q hq] at hd
      cases hd
      simp only [Bool.and_eq_true, decide_eq_true_eq] at hc
      exact hc.2
    · exact ih _

end

/-! ## Changes -/

theorem mem_changes {d : Diff} {c : Change} : c ∈ d.changes ↔
    (c.kind = .insert ∧ (c.key, c.value) ∈ d.inserts.entries) ∨
      (c.kind = .update ∧ (c.key, c.value) ∈ d.updates.entries) ∨
        (c.kind = .deletion ∧ c.key ∈ d.deletions.keys ∧ c.value = []) := by
  obtain ⟨kind, key, value⟩ := c
  simp only [changes, List.append_assoc, List.mem_append, List.mem_map, Change.mk.injEq, SortedMap.keys]
  grind

/-- The keys and values of the changes of one kind. -/
def ofKind (kind : ChangeKind) (cs : List Change) : List (String × Bytes) :=
  (cs.filter (·.kind = kind)).map fun c => (c.key, c.value)

theorem mem_ofKind {kind : ChangeKind} {cs : List Change} {e : String × Bytes} :
    e ∈ ofKind kind cs ↔ ⟨kind, e.1, e.2⟩ ∈ cs := by
  simp only [ofKind, List.mem_map, List.mem_filter, decide_eq_true_eq]
  constructor
  · rintro ⟨c, ⟨hc, rfl⟩, rfl⟩
    exact hc
  · exact fun h => ⟨_, ⟨h, rfl⟩, rfl⟩

/-- All kinds are those of inserts, updates and deletions. -/
def Valid (cs : List Change) : Prop := ∀ c ∈ cs, c.kind ≠ .unspecified

theorem valid_of_subset {d : Diff} {cs : List Change} (h : cs ⊆ d.changes) : Valid cs := by
  intro c hc h0
  have := mem_changes.1 (h hc)
  simp [h0] at this

/-- What was received, counted with repetitions. -/
def counted (cs : List Change) : Overview :=
  ⟨(ofKind .insert cs).length, (ofKind .update cs).length, (ofKind .deletion cs).length⟩

/-- What was received, put together. -/
def gathered (cs : List Change) : Diff where
  inserts := .ofList (ofKind .insert cs)
  updates := .ofList (ofKind .update cs)
  deletions := SortedMap.ofList ((ofKind .deletion cs).map fun e => (e.1, ()))

theorem length_of_counted {cs : List Change} (h : Valid cs) :
    cs.length = (counted cs).inserts + (counted cs).updates + (counted cs).deletions := by
  induction cs with
  | nil => rfl
  | cons c cs ih =>
    have hc := h c List.mem_cons_self
    have ih := ih fun d hd => h d (List.mem_cons_of_mem _ hd)
    obtain ⟨kind, key, value⟩ := c
    cases kind <;> simp_all [counted, ofKind] <;> omega

/-! ## Reassembly -/

namespace Assembler

theorem accept_of_valid {cs : List Change} (h : Valid cs) : ∀ a : Assembler,
    a.accept cs = (.ok (),
      { a with
        diff :=
          { inserts := a.diff.inserts.insertAll (ofKind .insert cs)
            updates := a.diff.updates.insertAll (ofKind .update cs)
            deletions := SortedMap.insertAll a.diff.deletions ((ofKind .deletion cs).map fun e => (e.1, ())) }
        received :=
          { inserts := a.received.inserts + (ofKind .insert cs).length
            updates := a.received.updates + (ofKind .update cs).length
            deletions := a.received.deletions + (ofKind .deletion cs).length } }) := by
  induction cs with
  | nil => exact fun _ => rfl
  | cons c cs ih =>
    intro a
    have hc := h c List.mem_cons_self
    have ih := ih fun d hd => h d (List.mem_cons_of_mem _ hd)
    obtain ⟨kind, key, value⟩ := c
    cases kind with
    | unspecified => exact absurd rfl hc
    | insert => simp [accept, ih, ofKind, SortedMap.insertAll, Nat.add_assoc, Nat.add_comm 1]
    | update => simp [accept, ih, ofKind, SortedMap.insertAll, Nat.add_assoc, Nat.add_comm 1]
    | deletion => simp [accept, ih, ofKind, SortedMap.insertAll, SortedSet.insert, Nat.add_assoc, Nat.add_comm 1]

theorem accept_append (cs ds : List Change) : ∀ {a b : Assembler}, a.accept cs = (.ok (), b) →
    a.accept (cs ++ ds) = b.accept ds := by
  induction cs with
  | nil =>
    intro a b h
    cases h
    rfl
  | cons c cs ih =>
    intro a b h
    obtain ⟨kind, key, value⟩ := c
    cases kind with
    | unspecified => cases h
    | insert | update | deletion => exact ih h

theorem overview_accept (cs : List Change) : ∀ a : Assembler, (a.accept cs).2.overview = a.overview := by
  induction cs with
  | nil => exact fun _ => rfl
  | cons c cs ih =>
    intro a
    obtain ⟨kind, key, value⟩ := c
    cases kind with
    | unspecified => rfl
    | insert | update | deletion => exact ih _

/-- Changes count as if they came in one frame. -/
theorem run_append (parts : List (List Change)) (fs : List Frame) : ∀ {a : Assembler}, a.overview.isSome →
    Valid parts.flatten → a.run (parts.map .changes ++ fs) = (a.accept parts.flatten).2.run fs := by
  induction parts with
  | nil => exact fun _ _ => rfl
  | cons p parts ih =>
    intro a ha h
    have hp : Valid p := fun c hc => h c (List.mem_append_left _ hc)
    have hparts : Valid parts.flatten := fun c hc => h c (List.mem_append_right _ hc)
    obtain ⟨o, ho⟩ := Option.isSome_iff_exists.1 ha
    have hacc := accept_of_valid hp a
    have hpush : a.push (.changes p) = a.accept p := by simp [push, ho]
    rw [List.flatten_cons, accept_append p parts.flatten hacc, List.map_cons, List.cons_append, run, hpush, hacc]
    exact ih ha hparts

theorem run_changes (parts : List (List Change)) {a : Assembler} (ha : a.overview.isSome) (h : Valid parts.flatten) :
    a.run (parts.map .changes) = (a.accept parts.flatten).2.finish := by
  have hrun := run_append parts [] ha h
  rwa [List.append_nil] at hrun

theorem run_eq_ok {fs : List Frame} {d : Diff} : ∀ {a : Assembler}, a.overview.isSome → a.run fs = .ok d →
    ∃ parts : List (List Change), fs = parts.map .changes := by
  induction fs with
  | nil => exact fun _ _ => ⟨[], rfl⟩
  | cons f fs ih =>
    intro a ha h
    obtain ⟨o, ho⟩ := Option.isSome_iff_exists.1 ha
    cases f with
    | overview o' => simp [run, push, ho] at h
    | changes cs =>
      have hpush : a.push (.changes cs) = a.accept cs := by simp [push, ho]
      rw [run, hpush] at h
      split at h
      · rename_i b hb
        have hb' : b.overview.isSome := by
          rwa [← overview_accept cs a, hb] at ha
        obtain ⟨parts, rfl⟩ := ih hb' h
        exact ⟨cs :: parts, rfl⟩
      · cases h

end Assembler

theorem ofFrames?_overview (o : Overview) {parts : List (List Change)} (h : Valid parts.flatten) :
    ofFrames? (.overview o :: parts.map .changes) =
      if o = counted parts.flatten ∧ o = (gathered parts.flatten).overview then .ok (gathered parts.flatten)
      else .error .opsMiscount := by
  have hrun : ofFrames? (.overview o :: parts.map .changes) =
      Assembler.run ⟨some o, .empty, ⟨0, 0, 0⟩⟩ (parts.map .changes) := rfl
  have hfinish : Assembler.finish ⟨some o, gathered parts.flatten, counted parts.flatten⟩ =
      if o = counted parts.flatten ∧ o = (gathered parts.flatten).overview then .ok (gathered parts.flatten)
      else .error .opsMiscount := by
    simp only [Assembler.finish]
    by_cases h₁ : o = counted parts.flatten <;> by_cases h₂ : o = (gathered parts.flatten).overview <;>
      simp [h₁, h₂]
  rw [hrun, Assembler.run_changes parts rfl h, Assembler.accept_of_valid h, ← hfinish]
  simp only [counted, Nat.zero_add]
  rfl

theorem eq_of_ofFrames? {fs : List Frame} {d : Diff} (h : ofFrames? fs = .ok d) :
    ∃ o, ∃ parts : List (List Change), fs = .overview o :: parts.map .changes := by
  cases fs with
  | nil => cases h
  | cons f fs =>
    cases f with
    | changes cs => cases h
    | overview o =>
      obtain ⟨parts, rfl⟩ := Assembler.run_eq_ok (a := ⟨some o, .empty, ⟨0, 0, 0⟩⟩) rfl h
      exact ⟨o, parts, rfl⟩

/-! ## The changes of a diff, in any order -/

section
variable {d : Diff} {cs : List Change} (h : cs.Perm d.changes)
include h

theorem gathered_of_perm : gathered cs = d := by
  have hmem : ∀ {c}, c ∈ cs ↔ c ∈ d.changes := h.mem_iff
  unfold gathered
  congr 1
  · refine SortedMap.ofList_eq fun e => ?_
    rw [mem_ofKind, hmem, mem_changes]
    simp
  · refine SortedMap.ofList_eq fun e => ?_
    rw [mem_ofKind, hmem, mem_changes]
    simp
  · refine SortedMap.ofList_eq fun e => ?_
    simp only [List.mem_map, mem_ofKind, hmem, mem_changes, SortedMap.keys]
    constructor
    · rintro ⟨c, hc, rfl⟩
      obtain ⟨⟨a, ha, hk⟩, _⟩ : (∃ a ∈ d.deletions.entries, a.1 = c.1) ∧ c.2 = [] := by simpa using hc
      rwa [← hk]
    · exact fun he => ⟨(e.1, []), .inr (.inr ⟨trivial, ⟨e, he, rfl⟩, rfl⟩), rfl⟩

theorem counted_of_perm : counted cs = d.overview := by
  have hkind : ∀ kind, (ofKind kind cs).length = (ofKind kind d.changes).length :=
    fun kind => ((h.filter _).map _).length_eq
  simp only [counted, hkind]
  simp [ofKind, changes, overview, SortedMap.size, SortedMap.keys, List.filter_map, Function.comp_def]

end

theorem ofFrames?_of_perm {d : Diff} {parts : List (List Change)} (h : parts.flatten.Perm d.changes) :
    ofFrames? (.overview d.overview :: parts.map .changes) = .ok d := by
  rw [ofFrames?_overview _ (valid_of_subset h.subset), gathered_of_perm h, counted_of_perm h, if_pos ⟨rfl, rfl⟩]

/-- How the changes of a diff are cut into the parts that travel as frames. -/
structure Cut (d : Diff) (limit : Nat) (parts : List (List Change)) : Prop where
  /-- Inserts come first, then updates, then deletions, each in key order. -/
  flatten : parts.flatten = d.inserts.entries.map (fun e => ⟨.insert, e.1, e.2⟩)
    ++ d.updates.entries.map (fun e => ⟨.update, e.1, e.2⟩) ++ d.deletions.keys.map fun k => ⟨.deletion, k, []⟩
  ne_nil : ∀ p ∈ parts, p ≠ []
  bounded : ∀ p ∈ parts, (p.map Change.size).sum ≤ limit ∨ p.length = 1
  full : parts.IsChain fun p q => ∀ c ∈ q.head?, limit < (p.map Change.size).sum + c.size

theorem cut_pack (d : Diff) (limit : Nat) : d.Cut limit (pack limit [] d.changes) where
  flatten := flatten_pack_nil limit d.changes
  ne_nil := ne_nil_of_mem_pack limit d.changes []
  bounded p hp := by
    have hne := ne_nil_of_mem_pack limit d.changes [] p hp
    rw [← totalSize_eq_sum]
    refine (bounded_pack limit d.changes [] (.inl (Nat.zero_le limit)) p hp).imp_right fun hle => ?_
    exact Nat.le_antisymm hle (List.length_pos_iff.2 hne)
  full := by
    simp only [← totalSize_eq_sum]
    exact full_pack limit d.changes []

/-- Framing keeps to its limit where it can, and frames put together again are the diff. -/
theorem frames_round_trip (d : Diff) (limit : Nat) :
    ofFrames? (d.frames limit) = .ok d ∧
      ∃ parts, d.frames limit =
        .overview ⟨d.inserts.size, d.updates.size, d.deletions.size⟩ :: parts.map .changes ∧ d.Cut limit parts := by
  refine ⟨ofFrames?_of_perm ?_, _, rfl, d.cut_pack limit⟩
  rw [flatten_pack_nil]

end Keyspace.Diff
