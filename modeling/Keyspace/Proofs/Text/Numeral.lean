import Keyspace.Text.Utf8.Lemmas

/-!
# Numerals

A number is written as ASCII digits, a minus in front if it is negative. The digits fold back to the
number, so numerals are injective.
-/

namespace Keyspace.Utf8

theorem encodeChar_of_ascii {c : Char} (h : c.toNat < 128) :
    String.utf8EncodeChar c = [UInt8.ofNat c.toNat] := by
  have hc : c.val.toNat = c.toNat := rfl
  rw [String.utf8EncodeChar.eq_1, hc, if_pos (by omega)]

theorem encode_ofList_ascii {l : List Char} (h : ∀ c ∈ l, c.toNat < 128) :
    encode (String.ofList l) = l.map fun c => UInt8.ofNat c.toNat := by
  rw [encode_ofList]
  induction l with
  | nil => rfl
  | cons c l ih =>
    rw [List.flatMap_cons, encodeChar_of_ascii (h c (by simp)),
      ih fun d hd => h d (List.mem_cons_of_mem _ hd)]
    rfl

theorem toNat_of_isDigit {c : Char} (h : c.isDigit = true) : 48 ≤ c.toNat ∧ c.toNat ≤ 57 := by
  simp only [Char.isDigit, Bool.and_eq_true, decide_eq_true_eq, UInt32.le_iff_toNat_le] at h
  exact h

/-! ## Natural numbers -/

theorem encode_repr (n : Nat) : encode n.repr = (Nat.toDigits 10 n).map fun c => UInt8.ofNat c.toNat := by
  rw [Nat.repr_eq_ofList_toDigits]
  apply encode_ofList_ascii
  intro c hc
  have := toNat_of_isDigit (Nat.isDigit_of_mem_toDigits (by decide) (by decide) hc)
  omega

theorem encode_repr_ne_nil (n : Nat) : encode n.repr ≠ [] := by
  rw [encode_repr]
  simp

theorem digit_of_mem_repr {n : Nat} {b : UInt8} (h : b ∈ encode n.repr) : 48 ≤ b.toNat ∧ b.toNat ≤ 57 := by
  rw [encode_repr] at h
  obtain ⟨c, hc, rfl⟩ := List.mem_map.1 h
  have := toNat_of_isDigit (Nat.isDigit_of_mem_toDigits (by decide) (by decide) hc)
  rw [UInt8.toNat_ofNat']
  omega

theorem foldl_digits {l : List Char} (h : ∀ c ∈ l, c.isDigit = true) : ∀ n : Nat,
    (l.map fun c => UInt8.ofNat c.toNat).foldl (fun n d => n * 10 + (d.toNat - 48)) n =
      Nat.ofDigitChars 10 l n := by
  induction l with
  | nil => intro n; simp
  | cons c l ih =>
    intro n
    have hc := toNat_of_isDigit (h c (by simp))
    have hb : (UInt8.ofNat c.toNat).toNat = c.toNat := by rw [UInt8.toNat_ofNat']; omega
    rw [List.map_cons, List.foldl_cons, ih fun d hd => h d (List.mem_cons_of_mem _ hd),
      Nat.ofDigitChars_cons, hb, Nat.mul_comm]
    rfl

theorem value_repr (n : Nat) : (encode n.repr).foldl (fun n d => n * 10 + (d.toNat - 48)) 0 = n := by
  rw [encode_repr, foldl_digits fun c hc => Nat.isDigit_of_mem_toDigits (by decide) (by decide) hc]
  exact Nat.ofDigitChars_ten_toDigits

theorem head_repr {n : Nat} (h : (encode n.repr).head? = some 48) : (encode n.repr).length = 1 := by
  have hn : ∀ n, (Nat.toDigits 10 n).head? = some '0' → n = 0 := by
    intro n
    induction n using Nat.strongRecOn with
    | ind n ih =>
      intro h
      rw [Nat.toDigits_eq_if (by decide)] at h
      split at h
      · simpa using h
      · rw [List.head?_append, List.head?_eq_some_head Nat.toDigits_ne_nil, Option.some_or,
          ← List.head?_eq_some_head] at h
        have := ih (n / 10) (by omega) h
        omega
  rw [encode_repr] at h ⊢
  rw [List.head?_map] at h
  obtain ⟨c, hc, hb⟩ := Option.map_eq_some_iff.1 h
  have hd := toNat_of_isDigit (Nat.isDigit_of_mem_toDigits (by decide) (by decide)
    (List.mem_of_mem_head? hc))
  have hc0 : c = '0' := by
    have hb' := congrArg UInt8.toNat hb
    rw [UInt8.toNat_ofNat'] at hb'
    apply Char.toNat_inj.1
    have : (48 : UInt8).toNat = 48 := rfl
    have : '0'.toNat = 48 := rfl
    omega
  have h0 := hn n (hc0 ▸ hc)
  subst h0
  rfl

/-! ## Integers -/

theorem encode_int_of_nonneg {n : Int} (h : 0 ≤ n) : encode (toString n) = encode n.toNat.repr := by
  rw [Int.toString_eq_repr, Int.repr_eq_if, if_pos h]

theorem encode_int_of_neg {n : Int} (h : n < 0) : encode (toString n) = 45 :: encode (-n).toNat.repr := by
  rw [Int.toString_eq_repr, Int.repr_eq_if, if_neg (by omega), encode_append]
  rfl

theorem mem_encode_int {n : Int} {b : UInt8} (h : b ∈ encode (toString n)) :
    b = 45 ∨ 48 ≤ b.toNat ∧ b.toNat ≤ 57 := by
  by_cases hn : 0 ≤ n
  · rw [encode_int_of_nonneg hn] at h
    exact .inr (digit_of_mem_repr h)
  · rw [encode_int_of_neg (by omega)] at h
    rcases List.mem_cons.1 h with h | h
    · exact .inl h
    · exact .inr (digit_of_mem_repr h)

theorem repr_inj {m n : Nat} (h : encode m.repr = encode n.repr) : m = n := by
  rw [← value_repr m, h, value_repr]

theorem minus_not_mem_repr (n : Nat) : (45 : UInt8) ∉ encode n.repr := by
  intro h
  have := digit_of_mem_repr h
  have : (45 : UInt8).toNat = 45 := rfl
  omega

theorem encode_int_inj {m n : Int} (h : encode (toString m) = encode (toString n)) : m = n := by
  by_cases hm : 0 ≤ m <;> by_cases hn : 0 ≤ n
  · rw [encode_int_of_nonneg hm, encode_int_of_nonneg hn] at h
    have := repr_inj h
    omega
  · rw [encode_int_of_nonneg hm, encode_int_of_neg (by omega)] at h
    exact absurd (h ▸ List.mem_cons_self) (minus_not_mem_repr m.toNat)
  · rw [encode_int_of_neg (by omega), encode_int_of_nonneg hn] at h
    exact absurd (h ▸ List.mem_cons_self) (minus_not_mem_repr n.toNat)
  · rw [encode_int_of_neg (by omega), encode_int_of_neg (by omega)] at h
    have := repr_inj (List.cons.inj h).2
    omega

end Keyspace.Utf8
