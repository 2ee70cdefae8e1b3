import Keyspace.Order

/-!
# UTF-8

`encode` writes text as bytes. `units` reads bytes as a sequence of characters and faults, one
fault for each longest part of a character that can not be completed; `decode?` accepts only
fault-free bytes and `decodeLossy` writes U+FFFD for a fault.
-/

namespace Keyspace.Utf8

def encode (s : String) : Bytes := s.toByteArray.data.toList

theorem encode_inj {s t : String} (h : encode s = encode t) : s = t :=
  String.toByteArray_inj.1 (ByteArray.ext (Array.toList_inj.1 h))

/-- The bytes that follow a lead byte: how many, and the range of the first of them. -/
structure Lead where
  more : Nat
  low : UInt8
  high : UInt8

def lead? (b : UInt8) : Option Lead :=
  if b < 0xc2 then none
  else if b < 0xe0 then some ⟨1, 0x80, 0xbf⟩
  else if b = 0xe0 then some ⟨2, 0xa0, 0xbf⟩
  else if b = 0xed then some ⟨2, 0x80, 0x9f⟩
  else if b < 0xf0 then some ⟨2, 0x80, 0xbf⟩
  else if b = 0xf0 then some ⟨3, 0x90, 0xbf⟩
  else if b < 0xf4 then some ⟨3, 0x80, 0xbf⟩
  else if b = 0xf4 then some ⟨3, 0x80, 0x8f⟩
  else none

def isContinuation (b : UInt8) : Bool := 0x80 ≤ b && b ≤ 0xbf

/-- The six payload bits of a continuation byte. -/
def low6 (b : UInt8) : Nat := b.toNat % 64

/-- The characters of a byte string, `none` standing for a fault. -/
def units : Bytes → List (Option Char)
  | [] => []
  | b :: rest =>
    if b < 0x80 then some (Char.ofNat b.toNat) :: units rest
    else match lead? b with
    | none => none :: units rest
    | some l =>
      match rest with
      | [] => [none]
      | c :: rest₁ =>
        if c < l.low || l.high < c then none :: units (c :: rest₁)
        else if l.more = 1 then
          some (Char.ofNat (b.toNat % 32 * 64 + low6 c)) :: units rest₁
        else match rest₁ with
        | [] => [none]
        | d :: rest₂ =>
          if !isContinuation d then none :: units (d :: rest₂)
          else if l.more = 2 then
            some (Char.ofNat ((b.toNat % 16 * 64 + low6 c) * 64 + low6 d)) :: units rest₂
          else match rest₂ with
          | [] => [none]
          | e :: rest₃ =>
            if !isContinuation e then none :: units (e :: rest₃)
            else
              some (Char.ofNat (((b.toNat % 8 * 64 + low6 c) * 64 + low6 d) * 64 + low6 e))
                :: units rest₃

def decodeLossy (b : Bytes) : String :=
  String.ofList ((units b).map (·.getD '\ufffd'))

def decode? (b : Bytes) : Option String :=
  (units b).mapM id |>.map String.ofList

end Keyspace.Utf8

namespace Keyspace

instance : KeyOrder String where
  lt s t := KeyOrder.lt (Utf8.encode s) (Utf8.encode t)
  irrefl _ := KeyOrder.irrefl _
  trans := KeyOrder.trans
  connected h₁ h₂ := Utf8.encode_inj (KeyOrder.connected h₁ h₂)

end Keyspace
