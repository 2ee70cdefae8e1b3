/-!
# Orders on keys

Byte strings are ordered byte by byte, a proper beginning before its extensions.
Text is ordered by its UTF-8 bytes, so a text key and its stored form sort alike.
-/

namespace Keyspace

abbrev Bytes := List UInt8

/-- A decidable strict total order. -/
class KeyOrder (κ : Type) where
  lt : κ → κ → Bool
  irrefl : ∀ a, lt a a = false
  trans : ∀ {a b c}, lt a b = true → lt b c = true → lt a c = true
  connected : ∀ {a b}, lt a b = false → lt b a = false → a = b

namespace KeyOrder

variable {κ : Type} [KeyOrder κ]

theorem asymm {a b : κ} (h : lt a b = true) : lt b a = false := by
  cases hb : lt b a with
  | false => rfl
  | true => exact absurd (trans h hb) (by simp [irrefl])

theorem ne_of_lt {a b : κ} (h : lt a b = true) : a ≠ b := by
  rintro rfl
  simp [irrefl] at h

end KeyOrder

/-! ## Byte strings -/

namespace Bytes

def lt : Bytes → Bytes → Bool
  | _, [] => false
  | [], _ :: _ => true
  | a :: as, b :: bs => decide (a < b) || (a == b && lt as bs)

theorem lt_irrefl (a : Bytes) : lt a a = false := by
  induction a with
  | nil => rfl
  | cons x a ih => simp [lt, ih]

theorem lt_trans {a b c : Bytes} (h₁ : lt a b = true) (h₂ : lt b c = true) : lt a c = true := by
  induction a generalizing b c with
  | nil =>
    cases c with
    | nil => cases b <;> simp [lt] at h₂
    | cons z c => rfl
  | cons x a ih =>
    cases b with
    | nil => simp [lt] at h₁
    | cons y b =>
      cases c with
      | nil => simp [lt] at h₂
      | cons z c =>
        simp only [lt, Bool.or_eq_true, decide_eq_true_eq, Bool.and_eq_true, beq_iff_eq] at *
        rcases h₁ with h₁ | ⟨rfl, h₁⟩ <;> rcases h₂ with h₂ | ⟨rfl, h₂⟩
        · exact .inl (UInt8.lt_trans h₁ h₂)
        · exact .inl h₁
        · exact .inl h₂
        · exact .inr ⟨rfl, ih h₁ h₂⟩

theorem lt_connected {a b : Bytes} (h₁ : lt a b = false) (h₂ : lt b a = false) : a = b := by
  induction a generalizing b with
  | nil => cases b <;> simp [lt] at *
  | cons x a ih =>
    cases b with
    | nil => simp [lt] at *
    | cons y b =>
      simp only [lt, Bool.or_eq_false_iff, decide_eq_false_iff_not, Bool.and_eq_false_imp,
        beq_iff_eq] at h₁ h₂
      have hxy : x = y := UInt8.le_antisymm (UInt8.not_lt.1 h₂.1) (UInt8.not_lt.1 h₁.1)
      subst hxy
      rw [ih (h₁.2 rfl) (h₂.2 rfl)]

instance : KeyOrder Bytes := ⟨lt, lt_irrefl, lt_trans, lt_connected⟩

end Bytes

instance : KeyOrder Int where
  lt a b := decide (a < b)
  irrefl a := by simp
  trans h₁ h₂ := by simp at *; omega
  connected h₁ h₂ := by simp at *; omega

end Keyspace
