import Keyspace.Text.Utf8

/-!
# UTF-8: reading what was written

Text that was encoded is read back, by the strict reader and by the lossy one (`decode?_encode`,
`decodeLossy_encode`).
-/

namespace Keyspace.Utf8

/-! ## Writing -/

theorem encode_ofList (l : List Char) : encode (String.ofList l) = l.flatMap String.utf8EncodeChar := by
  simp only [encode, String.toByteArray_ofList, List.utf8Encode, List.data_toByteArray]

theorem encode_eq (s : String) : encode s = s.toList.flatMap String.utf8EncodeChar := by
  rw [← encode_ofList, String.ofList_toList]

@[simp] theorem encode_append (s t : String) : encode (s ++ t) = encode s ++ encode t := by
  simp [encode_eq]

/-! ## One character -/

theorem lead?_two {b : UInt8} (h₁ : 0xc2 ≤ b.toNat) (h₂ : b.toNat < 0xe0) :
    lead? b = some ⟨1, 0x80, 0xbf⟩ := by
  have h₃ : ¬ b < 0xc2 := by simp [UInt8.lt_iff_toNat_lt]; omega
  have h₄ : b < 0xe0 := by simp [UInt8.lt_iff_toNat_lt]; omega
  simp [lead?, h₃, h₄]

theorem units_two {b c : UInt8} (rest : Bytes) (hb : 0xc2 ≤ b.toNat ∧ b.toNat < 0xe0)
    (hc : 0x80 ≤ c.toNat ∧ c.toNat ≤ 0xbf) :
    units (b :: c :: rest) = some (Char.ofNat (b.toNat % 32 * 64 + c.toNat % 64)) :: units rest := by
  have h₁ : ¬ b < 0x80 := by simp [UInt8.lt_iff_toNat_lt]; omega
  have h₂ : ¬ c < 0x80 := by simp [UInt8.lt_iff_toNat_lt]; omega
  have h₃ : ¬ 0xbf < c := by simp [UInt8.lt_iff_toNat_lt]; omega
  rw [units, if_neg h₁]
  simp [lead?_two hb.1 hb.2, h₂, h₃, low6]

theorem isContinuation_iff (b : UInt8) :
    isContinuation b = true ↔ 0x80 ≤ b.toNat ∧ b.toNat ≤ 0xbf := by
  simp [isContinuation, UInt8.le_iff_toNat_le]

/-- The range of the byte after the lead byte of three is what keeps out longer spellings and
surrogates. -/
theorem units_three {b c d : UInt8} (rest : Bytes) (hb : 0xe0 ≤ b.toNat ∧ b.toNat < 0xf0)
    (hc : 0x80 ≤ c.toNat ∧ c.toNat ≤ 0xbf) (hd : 0x80 ≤ d.toNat ∧ d.toNat ≤ 0xbf)
    (hlow : b.toNat = 0xe0 → 0xa0 ≤ c.toNat) (hhigh : b.toNat = 0xed → c.toNat ≤ 0x9f) :
    units (b :: c :: d :: rest) =
      some (Char.ofNat ((b.toNat % 16 * 64 + c.toNat % 64) * 64 + d.toNat % 64)) :: units rest := by
  have h₁ : ¬ b < 0x80 := by simp [UInt8.lt_iff_toNat_lt]; omega
  have hl : ∃ low high, lead? b = some ⟨2, low, high⟩ ∧ ¬ c < low ∧ ¬ high < c := by
    have h₂ : ¬ b < 0xc2 := by simp [UInt8.lt_iff_toNat_lt]; omega
    have h₃ : ¬ b < 0xe0 := by simp [UInt8.lt_iff_toNat_lt]; omega
    have h₄ : b < 0xf0 := by simp [UInt8.lt_iff_toNat_lt]; omega
    by_cases he : b = 0xe0
    · refine ⟨0xa0, 0xbf, by simp [lead?, he], ?_, ?_⟩ <;> simp [UInt8.lt_iff_toNat_lt] <;>
        have := hlow (by simp [he]) <;> omega
    · by_cases hed : b = 0xed
      · refine ⟨0x80, 0x9f, by simp [lead?, hed], ?_, ?_⟩ <;> simp [UInt8.lt_iff_toNat_lt] <;>
          have := hhigh (by simp [hed]) <;> omega
      · refine ⟨0x80, 0xbf, by simp [lead?, h₂, h₃, h₄, he, hed], ?_, ?_⟩ <;>
          simp [UInt8.lt_iff_toNat_lt] <;> omega
  obtain ⟨low, high, hl, h₂, h₃⟩ := hl
  rw [units, if_neg h₁]
  simp [hl, h₂, h₃, (isContinuation_iff d).2 hd, low6]

theorem units_four {b c d e : UInt8} (rest : Bytes) (hb : 0xf0 ≤ b.toNat ∧ b.toNat ≤ 0xf4)
    (hc : 0x80 ≤ c.toNat ∧ c.toNat ≤ 0xbf) (hd : 0x80 ≤ d.toNat ∧ d.toNat ≤ 0xbf)
    (he : 0x80 ≤ e.toNat ∧ e.toNat ≤ 0xbf)
    (hlow : b.toNat = 0xf0 → 0x90 ≤ c.toNat) (hhigh : b.toNat = 0xf4 → c.toNat ≤ 0x8f) :
    units (b :: c :: d :: e :: rest) =
      some (Char.ofNat (((b.toNat % 8 * 64 + c.toNat % 64) * 64 + d.toNat % 64) * 64 + e.toNat % 64))
        :: units rest := by
  have h₁ : ¬ b < 0x80 := by simp [UInt8.lt_iff_toNat_lt]; omega
  have hl : ∃ low high, lead? b = some ⟨3, low, high⟩ ∧ ¬ c < low ∧ ¬ high < c := by
    have h₂ : ¬ b < 0xc2 := by simp [UInt8.lt_iff_toNat_lt]; omega
    have h₃ : ¬ b < 0xe0 := by simp [UInt8.lt_iff_toNat_lt]; omega
    have h₄ : ¬ b < 0xf0 := by simp [UInt8.lt_iff_toNat_lt]; omega
    have h₅ : ¬ b = 0xe0 := fun h => by simp [h] at hb
    have h₆ : ¬ b = 0xed := fun h => by simp [h] at hb
    by_cases hf : b = 0xf0
    · refine ⟨0x90, 0xbf, by simp [lead?, hf], ?_, ?_⟩ <;> simp [UInt8.lt_iff_toNat_lt] <;>
        have := hlow (by simp [hf]) <;> omega
    · by_cases hf' : b = 0xf4
      · refine ⟨0x80, 0x8f, by simp [lead?, hf'], ?_, ?_⟩ <;> simp [UInt8.lt_iff_toNat_lt] <;>
          have := hhigh (by simp [hf']) <;> omega
      · have h₇ : b < 0xf4 := by
          have : b.toNat ≠ 0xf4 := fun h => hf' (UInt8.toNat_inj.1 h)
          simp [UInt8.lt_iff_toNat_lt]; omega
        refine ⟨0x80, 0xbf, by simp [lead?, h₂, h₃, h₄, h₅, h₆, h₇, hf], ?_, ?_⟩ <;>
          simp [UInt8.lt_iff_toNat_lt] <;> omega
  obtain ⟨low, high, hl, h₂, h₃⟩ := hl
  rw [units, if_neg h₁]
  simp [hl, h₂, h₃, (isContinuation_iff d).2 hd, (isContinuation_iff e).2 he, low6]

/-! ## Reading -/

theorem toNat_valid (c : Char) : c.toNat < 0xd800 ∨ 0xdfff < c.toNat ∧ c.toNat < 0x110000 := c.valid

theorem units_encodeChar (c : Char) (rest : Bytes) :
    units (String.utf8EncodeChar c ++ rest) = some c :: units rest := by
  have hv := toNat_valid c
  have hc : c.val.toNat = c.toNat := rfl
  rw [String.utf8EncodeChar.eq_1, hc]
  split
  · rename_i h
    have hn : (UInt8.ofNat c.toNat).toNat = c.toNat := by simp; omega
    have hb : UInt8.ofNat c.toNat < 0x80 := by simp [UInt8.lt_iff_toNat_lt]; omega
    rw [List.cons_append, units, if_pos hb, hn, Char.ofNat_toNat]
    rfl
  · split
    · rename_i h₁ h₂
      rw [List.cons_append, List.cons_append, units_two _ (by simp; omega) (by simp; omega)]
      have : (UInt8.ofNat (c.toNat / 64 % 32 + 192)).toNat % 32 * 64
          + (UInt8.ofNat (c.toNat % 64 + 128)).toNat % 64 = c.toNat := by simp; omega
      rw [this, Char.ofNat_toNat]
      rfl
    · split
      · rename_i h₁ h₂ h₃
        rw [List.cons_append, List.cons_append, List.cons_append, units_three _ (by simp; omega)
          (by simp; omega) (by simp; omega) (by simp; omega) (by simp; omega)]
        have : ((UInt8.ofNat (c.toNat / 4096 % 16 + 224)).toNat % 16 * 64
            + (UInt8.ofNat (c.toNat / 64 % 64 + 128)).toNat % 64) * 64
            + (UInt8.ofNat (c.toNat % 64 + 128)).toNat % 64 = c.toNat := by simp; omega
        rw [this, Char.ofNat_toNat]
        rfl
      · rename_i h₁ h₂ h₃
        rw [List.cons_append, List.cons_append, List.cons_append, List.cons_append,
          units_four _ (by simp; omega) (by simp; omega) (by simp; omega) (by simp; omega)
            (by simp; omega) (by simp; omega)]
        have : (((UInt8.ofNat (c.toNat / 262144 % 8 + 240)).toNat % 8 * 64
            + (UInt8.ofNat (c.toNat / 4096 % 64 + 128)).toNat % 64) * 64
            + (UInt8.ofNat (c.toNat / 64 % 64 + 128)).toNat % 64) * 64
            + (UInt8.ofNat (c.toNat % 64 + 128)).toNat % 64 = c.toNat := by simp; omega
        rw [this, Char.ofNat_toNat]
        rfl

theorem units_flatMap (l : List Char) : units (l.flatMap String.utf8EncodeChar) = l.map some := by
  induction l with
  | nil => simp [units]
  | cons c l ih => rw [List.flatMap_cons, units_encodeChar, ih]; rfl

theorem units_encode (s : String) : units (encode s) = s.toList.map some := by
  rw [encode_eq, units_flatMap]

@[simp] theorem decodeLossy_encode (s : String) : decodeLossy (encode s) = s := by
  simp [decodeLossy, units_encode, Function.comp_def]

@[simp] theorem decode?_encode (s : String) : decode? (encode s) = some s := by
  have : ∀ l : List Char, (l.map some).mapM id = some l := by
    intro l
    induction l with
    | nil => rfl
    | cons c l ih => simp_all
  simp [decode?, units_encode, this]

end Keyspace.Utf8
