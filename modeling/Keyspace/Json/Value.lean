import Keyspace.Order

/-!
# JSON values

Objects keep their fields in text order, doubles included: whether a double is a fault is for the
reader of the object to say.
-/

namespace Keyspace

inductive Json
  | null
  | bool (b : Bool)
  /-- A number written as an integer; `-0` is not one. -/
  | int (n : Int)
  /-- Any other number, as written. -/
  | decimal (lexeme : String)
  | str (s : String)
  | arr (items : List Json)
  | obj (fields : List (String × Json))
  /-- Well formed, but with a string that names no text: it can be skipped and not read. -/
  | unreadable

namespace Json

/-! ## Writing -/

def hexDigit (n : Nat) : Char :=
  if n < 10 then Char.ofNat (48 + n) else Char.ofNat (87 + n)

/-- Quotes, backslashes and control characters are escaped, the rest stands as it is. -/
def escape (c : Char) : List Char :=
  match c with
  | '"' => ['\\', '"']
  | '\\' => ['\\', '\\']
  | '\n' => ['\\', 'n']
  | '\r' => ['\\', 'r']
  | '\t' => ['\\', 't']
  | c =>
    if c.toNat = 8 then ['\\', 'b']
    else if c.toNat = 12 then ['\\', 'f']
    else if c.toNat < 32 then ['\\', 'u', '0', '0', hexDigit (c.toNat / 16), hexDigit (c.toNat % 16)]
    else [c]

def quote (s : String) : String :=
  String.ofList ('"' :: s.toList.flatMap escape ++ ['"'])

mutual

def render : Json → String
  | null | unreadable => "null"
  | bool b => if b then "true" else "false"
  | int n => toString n
  | decimal lexeme => lexeme
  | str s => quote s
  | arr [] => "[]"
  | arr (v :: vs) => "[" ++ render v ++ renderItems vs
  | obj [] => "\x7b\x7d"
  | obj ((k, v) :: fs) => "\x7b" ++ quote k ++ ":" ++ render v ++ renderFields fs

def renderItems : List Json → String
  | [] => "]"
  | v :: vs => "," ++ render v ++ renderItems vs

def renderFields : List (String × Json) → String
  | [] => "\x7d"
  | (k, v) :: fs => "," ++ quote k ++ ":" ++ render v ++ renderFields fs

end

end Json

end Keyspace
