import Keyspace.Json.Value
import Keyspace.Text.Utf8

/-!
# Reading JSON

The reader works on bytes. Each step takes something off the front and returns the rest; `none`
means that the bytes are no JSON.
-/

namespace Keyspace.Json.Reader

def ascii (c : Char) : UInt8 := UInt8.ofNat c.toNat

def isBlank (b : UInt8) : Bool := b = 0x20 || b = 0x0a || b = 0x0d || b = 0x09

def skipBlank (b : Bytes) : Bytes := b.dropWhile isBlank

def isDigit (b : UInt8) : Bool := ascii '0' ≤ b && b ≤ ascii '9'

def literal (word : String) (b : Bytes) : Option Bytes :=
  let w := Utf8.encode word
  if w.isPrefixOf b then some (b.drop w.length) else none

/-! ## Numbers -/

def digitsValue (b : Bytes) : Nat := b.foldl (fun n d => n * 10 + (d.toNat - 48)) 0

def digits1 (b : Bytes) : Option (Bytes × Bytes) :=
  let ds := b.takeWhile isDigit
  if ds.isEmpty then none else some (ds, b.dropWhile isDigit)

/-- No zero stands before another digit. -/
def whole (b : Bytes) : Option (Bytes × Bytes) := do
  let (ds, rest) ← digits1 b
  if ds.head? = some (ascii '0') && 1 < ds.length then none else some (ds, rest)

def fraction (b : Bytes) : Option (Bytes × Bytes) :=
  match b with
  | c :: rest =>
    if c = ascii '.' then (digits1 rest).map fun (ds, r) => (c :: ds, r) else some ([], b)
  | [] => some ([], [])

def exponent (b : Bytes) : Option (Bytes × Bytes) :=
  match b with
  | c :: rest =>
    if c = ascii 'e' || c = ascii 'E' then
      match rest with
      | s :: rest' =>
        if s = ascii '+' || s = ascii '-' then (digits1 rest').map fun (ds, r) => (c :: s :: ds, r)
        else (digits1 rest).map fun (ds, r) => (c :: ds, r)
      | [] => none
    else some ([], b)
  | [] => some ([], [])

def number (b : Bytes) : Option (Json × Bytes) := do
  let (negative, b) := match b with
    | c :: rest => if c = ascii '-' then (true, rest) else (false, b)
    | [] => (false, [])
  let (ds, b) ← whole b
  let (fs, b) ← fraction b
  let (es, b) ← exponent b
  let n := digitsValue ds
  if fs.isEmpty && es.isEmpty && !(negative && n = 0) then
    some (.int (if negative then -n else n), b)
  else
    some (.decimal ((if negative then "-" else "") ++ Utf8.decodeLossy (ds ++ fs ++ es)), b)

/-! ## Strings -/

def hexValue (b : UInt8) : Option Nat :=
  if isDigit b then some (b.toNat - 48)
  else if ascii 'a' ≤ b && b ≤ ascii 'f' then some (b.toNat - 87)
  else if ascii 'A' ≤ b && b ≤ ascii 'F' then some (b.toNat - 55)
  else none

def hex4 (a b c d : UInt8) : Option Nat := do
  return (((← hexValue a) * 16 + (← hexValue b)) * 16 + (← hexValue c)) * 16 + (← hexValue d)

/-- What a two-character escape stands for. -/
def escaped (b : UInt8) : Option UInt8 :=
  if b = ascii '"' || b = ascii '\\' || b = ascii '/' then some b
  else if b = ascii 'b' then some 8
  else if b = ascii 'f' then some 12
  else if b = ascii 'n' then some 10
  else if b = ascii 'r' then some 13
  else if b = ascii 't' then some 9
  else none

/-- A piece of a string: bytes as they stand, or one 16-bit unit of an escape. -/
inductive Piece
  | byte (b : UInt8)
  | unit (n : Nat)

/-- The pieces up to the closing quote, and the rest after it. -/
def pieces : Bytes → Option (List Piece × Bytes)
  | [] => none
  | b :: rest =>
    if b = ascii '"' then some ([], rest)
    else if b = ascii '\\' then
      match rest with
      | [] => none
      | e :: rest =>
        if e = ascii 'u' then
          match rest with
          | h₁ :: h₂ :: h₃ :: h₄ :: rest => do
            let n ← hex4 h₁ h₂ h₃ h₄
            let (ps, r) ← pieces rest
            some (.unit n :: ps, r)
          | _ => none
        else do
          let c ← escaped e
          let (ps, r) ← pieces rest
          some (.byte c :: ps, r)
    else if b < 0x20 then none
    else do
      let (ps, r) ← pieces rest
      some (.byte b :: ps, r)

/-- The bytes that the pieces spell; a unit that is half of a pair needs the other half after it. -/
def spell : List Piece → Option Bytes
  | [] => some []
  | .byte b :: ps => (spell ps).map (b :: ·)
  | .unit n :: ps =>
    if n < 0xd800 || 0xdfff < n then (spell ps).map (String.utf8EncodeChar (Char.ofNat n) ++ ·)
    else if 0xdbff < n then none
    else match ps with
    | .unit m :: ps =>
      if m < 0xdc00 || 0xdfff < m then none
      else (spell ps).map
        (String.utf8EncodeChar (Char.ofNat (0x10000 + (n - 0xd800) * 0x400 + (m - 0xdc00))) ++ ·)
    | _ => none

/-- The text up to the closing quote, `none` inside if the string names none. -/
def text (b : Bytes) : Option (Option String × Bytes) := do
  let (ps, rest) ← pieces b
  some ((spell ps).bind Utf8.decode?, rest)

/-! ## Values -/

mutual

def value : Nat → Bytes → Option (Json × Bytes)
  | 0, _ => none
  | n + 1, b =>
    match skipBlank b with
    | [] => none
    | c :: rest =>
      if c = ascii '"' then (text rest).map fun (s, r) => (s.elim .unreadable .str, r)
      else if c = ascii '[' then
        match skipBlank rest with
        | [] => none
        | d :: r =>
          if d = ascii ']' then some (.arr [], r)
          else (items n (d :: r)).map fun (vs, r) => (.arr vs, r)
      else if c = ascii '\x7b' then
        match skipBlank rest with
        | [] => none
        | d :: r =>
          if d = ascii '\x7d' then some (.obj [], r)
          else (fields n (d :: r)).map fun (fs, r) => (fs.elim .unreadable .obj, r)
      else if c = ascii 't' then (literal "true" (c :: rest)).map (.bool true, ·)
      else if c = ascii 'f' then (literal "false" (c :: rest)).map (.bool false, ·)
      else if c = ascii 'n' then (literal "null" (c :: rest)).map (.null, ·)
      else number (c :: rest)

/-- The items of an array up to its end. -/
def items : Nat → Bytes → Option (List Json × Bytes)
  | 0, _ => none
  | n + 1, b =>
    match value n b with
    | none => none
    | some (v, r) =>
      match skipBlank r with
      | [] => none
      | c :: r =>
        if c = ascii ']' then some ([v], r)
        else if c = ascii ',' then (items n r).map fun (vs, r) => (v :: vs, r)
        else none

/-- The fields of an object up to its end, `none` inside if a name is no text. -/
def fields : Nat → Bytes → Option (Option (List (String × Json)) × Bytes)
  | 0, _ => none
  | n + 1, b =>
    match skipBlank b with
    | [] => none
    | q :: r =>
      if q = ascii '"' then
        match text r with
        | none => none
        | some (k, r) =>
          match skipBlank r with
          | [] => none
          | c :: r =>
            if c = ascii ':' then
              match value n r with
              | none => none
              | some (v, r) =>
                match skipBlank r with
                | [] => none
                | c :: r =>
                  if c = ascii '\x7d' then some (k.map fun k => [(k, v)], r)
                  else if c = ascii ',' then
                    (fields n r).map fun (fs, r) =>
                      (do let k ← k; let fs ← fs; return (k, v) :: fs, r)
                  else none
            else none
      else none

end

end Reader

/-- The value that the bytes hold, blanks around it allowed. -/
def ofBytes? (b : Bytes) : Option Json := do
  let (v, rest) ← Reader.value (2 * b.length + 2) b
  if (Reader.skipBlank rest).isEmpty then some v else none

def ofString? (s : String) : Option Json := ofBytes? (Utf8.encode s)

end Keyspace.Json
