import Keyspace.Proofs.Store.View

/-!
# Keys with a common beginning

The span under `p` holds exactly the keys that start with `p` (`Span.contains_under`). Its stop is `p`
up to its last byte that can be raised, so keys are compared past what comes before that byte.
-/

namespace Keyspace

namespace Bytes

theorem lt_replicate_max (n : Nat) : ∀ k : Bytes,
    lt k (List.replicate n 0xff) = false ↔ List.replicate n 0xff <+: k := by
  induction n with
  | zero => intro k; cases k <;> simp [lt]
  | succ n ih =>
    intro k
    rw [List.replicate_succ]
    cases k with
    | nil => simp [lt]
    | cons c k =>
      have hc : ¬ (255 : UInt8) < c := by
        have := c.toNat_lt
        simp [UInt8.lt_iff_toNat_lt]
        omega
      rw [lt, List.cons_prefix_cons, Bool.or_eq_false_iff, Bool.and_eq_false_imp]
      simp only [decide_eq_false_iff_not, beq_iff_eq, ih]
      constructor
      · rintro ⟨h, h'⟩
        have he : c = 255 := UInt8.le_antisymm (UInt8.not_lt.1 hc) (UInt8.not_lt.1 h)
        exact ⟨he.symm, h' he⟩
      · rintro ⟨rfl, h⟩
        exact ⟨UInt8.lt_irrefl _, fun _ => h⟩

/-- Between a beginning and the one with its last raisable byte raised lie its extensions. -/
theorem between_raised {b : UInt8} (hb : b ≠ 0xff) (n : Nat) (q : Bytes) : ∀ k : Bytes,
    (lt k (q ++ b :: List.replicate n 0xff) = false ∧ lt k (q ++ [b + 1]) = true) ↔
      q ++ b :: List.replicate n 0xff <+: k := by
  have hlt : b.toNat < 255 := by
    have h1 := b.toNat_lt
    have h2 : b.toNat ≠ 255 := fun h => hb (UInt8.toNat_inj.1 h)
    omega
  have hraise : (b + 1).toNat = b.toNat + 1 := by
    rw [UInt8.toNat_add]
    have : (1 : UInt8).toNat = 1 := rfl
    omega
  induction q with
  | nil =>
    intro k
    cases k with
    | nil => simp [lt]
    | cons c k =>
      have hnil : lt k [] = false := by cases k <;> rfl
      simp only [List.nil_append, lt, hnil, Bool.and_false, Bool.or_false, Bool.or_eq_false_iff,
        Bool.and_eq_false_imp, decide_eq_false_iff_not, decide_eq_true_eq, beq_iff_eq,
        List.cons_prefix_cons, lt_replicate_max, UInt8.lt_iff_toNat_lt, hraise]
      constructor
      · rintro ⟨⟨h₁, h₂⟩, h₃⟩
        have he : c = b := UInt8.toNat_inj.1 (by omega)
        exact ⟨he.symm, h₂ he⟩
      · rintro ⟨rfl, h⟩
        exact ⟨⟨Nat.lt_irrefl _, fun _ => h⟩, Nat.lt_succ_self _⟩
  | cons x q ih =>
    intro k
    cases k with
    | nil => simp [lt]
    | cons c k =>
      simp only [List.cons_append, lt, Bool.or_eq_false_iff, Bool.and_eq_false_imp, Bool.or_eq_true,
        Bool.and_eq_true, decide_eq_false_iff_not, decide_eq_true_eq, beq_iff_eq, List.cons_prefix_cons]
      constructor
      · rintro ⟨⟨h₁, h₂⟩, h₃ | ⟨h₃, h₄⟩⟩
        · exact absurd h₃ h₁
        · exact ⟨h₃.symm, (ih k).1 ⟨h₂ h₃, h₄⟩⟩
      · rintro ⟨rfl, h⟩
        obtain ⟨h₁, h₂⟩ := (ih k).2 h
        exact ⟨⟨UInt8.lt_irrefl _, fun _ => h₁⟩, .inr ⟨rfl, h₂⟩⟩

end Bytes

/-- A byte string is its last byte that can be raised, with what stands before and greatest bytes after,
or it has greatest bytes only. -/
theorem afterPrefix_cases (p : Bytes) :
    (p = List.replicate p.length 0xff ∧ afterPrefix p = [0]) ∨
      ∃ q b n, b ≠ 0xff ∧ p = q ++ b :: List.replicate n 0xff ∧ afterPrefix p = q ++ [b + 1] := by
  have hsplit := List.takeWhile_append_dropWhile (p := fun b : UInt8 => decide (b = 0xff)) (l := p.reverse)
  obtain ⟨n, hmax⟩ : ∃ n, p.reverse.takeWhile (fun b => decide (b = 0xff)) = List.replicate n 0xff :=
    ⟨_, List.eq_replicate_iff.2 ⟨rfl, fun b hb => by
      simpa using List.all_eq_true.1 List.all_takeWhile b hb⟩⟩
  rw [hmax] at hsplit
  cases hd : p.reverse.dropWhile (fun b => decide (b = 0xff)) with
  | nil =>
    left
    rw [hd, List.append_nil] at hsplit
    have hp : p = List.replicate n 0xff := by rw [← List.reverse_reverse p, ← hsplit, List.reverse_replicate]
    refine ⟨?_, by simp [afterPrefix, hd]⟩
    rw [hp, List.length_replicate]
  | cons b rest =>
    right
    have hb : b ≠ 0xff := by
      have hne : p.reverse.dropWhile (fun b => decide (b = 0xff)) ≠ [] := by simp [hd]
      have := List.head_dropWhile_not _ hne
      simpa [hd] using this
    refine ⟨rest.reverse, b, n, hb, ?_, by simp [afterPrefix, hd]⟩
    rw [hd] at hsplit
    rw [← List.reverse_reverse p, ← hsplit]
    simp

theorem Span.contains_under (p k : Bytes) : (Span.under p).contains k = true ↔ p <+: k := by
  rcases afterPrefix_cases p with ⟨hp, ha⟩ | ⟨q, b, n, hb, hp, ha⟩
  · have hu : Span.under p = ⟨p, some [0]⟩ := by rw [Span.under, ha]
    rw [hu, hp]
    show (!Bytes.lt k (List.replicate p.length 0xff)) = true ↔ _
    rw [Bool.not_eq_true', Bytes.lt_replicate_max]
  · have hne : q ++ [b + 1] ≠ [0] := by
      intro h
      have h1 : b + 1 = 0 := by
        have := congrArg List.getLast? h
        simpa using this
      have h2 := congrArg UInt8.toNat h1
      rw [UInt8.toNat_add] at h2
      have h3 : (1 : UInt8).toNat = 1 := rfl
      have h4 : (0 : UInt8).toNat = 0 := rfl
      have h5 := b.toNat_lt
      exact hb (UInt8.toNat_inj.1 (by show b.toNat = 255; omega))
    have hu : Span.under p = .interval p (q ++ [b + 1]) := by rw [Span.under, ha]; rfl
    rw [hu, Span.contains_interval hne, hp, Bool.and_eq_true, Bool.not_eq_true',
      Bytes.between_raised hb n q k]

end Keyspace
