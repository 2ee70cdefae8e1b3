import Keyspace.Instant
import Keyspace.Json.Value

/-!
# TOML scalars

Strings, numbers and dates of TOML 1.0. Each reader takes a scalar off the front of the text and
returns the rest; `none` means that there is none of its form.
-/

namespace Keyspace.Toml

/-! ## Characters -/

def isSpace (c : Char) : Bool := c = ' ' || c = '\t'

def skipSpace (s : List Char) : List Char := s.dropWhile isSpace

/-- Allowed in comments and in all strings: a tab and whatever is no control character. -/
def isPrintable (c : Char) : Bool := c = '\t' || (0x20 ≤ c.toNat && c.toNat ≠ 0x7f)

/-- The rest after a line end. -/
def newline : List Char → Option (List Char)
  | '\n' :: s | '\r' :: '\n' :: s => some s
  | _ => none

def hexValue (c : Char) : Option Nat :=
  if c.isDigit then some (c.toNat - 48)
  else if 'a' ≤ c && c ≤ 'f' then some (c.toNat - 87)
  else if 'A' ≤ c && c ≤ 'F' then some (c.toNat - 55)
  else none

/-! ## Strings -/

/-- The character with the code that `n` hex digits give. -/
def coded (n : Nat) (s : List Char) : Option (Char × List Char) := do
  let ds ← (s.take n).mapM hexValue
  let code := ds.foldl (fun m d => m * 16 + d) 0
  if ds.length = n && (code < 0xd800 || (0xdfff < code && code < 0x110000)) then
    some (Char.ofNat code, s.drop n)
  else none

def escaped : List Char → Option (Char × List Char)
  | 'b' :: s => some (Char.ofNat 8, s)
  | 't' :: s => some ('\t', s)
  | 'n' :: s => some ('\n', s)
  | 'f' :: s => some (Char.ofNat 12, s)
  | 'r' :: s => some ('\r', s)
  | '"' :: s => some ('"', s)
  | '\\' :: s => some ('\\', s)
  | 'u' :: s => coded 4 s
  | 'U' :: s => coded 8 s
  | _ => none

def basicString : Nat → List Char → Option (List Char × List Char)
  | 0, _ => none
  | n + 1, s =>
    match s with
    | [] => none
    | '"' :: s => some ([], s)
    | '\\' :: s => do
      let (c, s) ← escaped s
      let (cs, s) ← basicString n s
      some (c :: cs, s)
    | c :: s => do
      if isPrintable c then
        let (cs, s) ← basicString n s
        some (c :: cs, s)
      else none

def literalString (s : List Char) : Option (List Char × List Char) :=
  let cs := s.takeWhile fun c => isPrintable c && c ≠ '\''
  match s.drop cs.length with
  | '\'' :: rest => some (cs, rest)
  | _ => none

def skipLines : Nat → List Char → List Char
  | 0, s => s
  | n + 1, s =>
    match newline s with
    | some s => skipLines n s
    | none =>
      match s with
      | c :: s' => if isSpace c then skipLines n s' else s
      | [] => []

/-- The body of a string over several lines, up to the closing quotes; up to two more of them in a
row belong to the body. `escapes` tells the two kinds of such strings apart. -/
def multiline (quote : Char) (escapes : Bool) : Nat → List Char → Option (List Char × List Char)
  | 0, _ => none
  | n + 1, s =>
    match newline s with
    | some s => (multiline quote escapes n s).map fun (cs, r) => ('\n' :: cs, r)
    | none =>
      match s with
      | [] => none
      | c :: rest =>
        if c = quote then
          let run := (s.take 5).takeWhile (· = quote)
          if run.length < 3 then
            (multiline quote escapes n rest).map fun (cs, r) => (c :: cs, r)
          else some (run.drop 3, s.drop run.length)
        else if c = '\\' && escapes then
          match newline (skipSpace rest) with
          | some s => multiline quote escapes n (skipLines s.length s)
          | none => do
            let (e, s) ← escaped rest
            let (cs, r) ← multiline quote escapes n s
            some (e :: cs, r)
        else if isPrintable c then
          (multiline quote escapes n rest).map fun (cs, r) => (c :: cs, r)
        else none

/-- A line end right after the opening quotes is no part of the string. -/
def openLines (s : List Char) : List Char := (newline s).getD s

def string (s : List Char) : Option (String × List Char) :=
  (match s with
    | '"' :: '"' :: '"' :: s => multiline '"' true (s.length + 1) (openLines s)
    | '"' :: s => basicString (s.length + 1) s
    | '\'' :: '\'' :: '\'' :: s => multiline '\'' false (s.length + 1) (openLines s)
    | '\'' :: s => literalString s
    | _ => none).map fun (cs, r) => (String.ofList cs, r)

/-! ## Numbers -/

/-- More digits of a run, an underscore allowed between two. -/
def moreDigits (p : Char → Bool) : List Char → List Char × List Char
  | '_' :: d :: s =>
    if p d then
      let (ds, r) := moreDigits p s
      (d :: ds, r)
    else ([], '_' :: d :: s)
  | d :: s =>
    if p d then
      let (ds, r) := moreDigits p s
      (d :: ds, r)
    else ([], d :: s)
  | [] => ([], [])

def digits (p : Char → Bool) : List Char → Option (List Char × List Char)
  | d :: s =>
    if p d then
      let (ds, r) := moreDigits p s
      some (d :: ds, r)
    else none
  | [] => none

def valueIn (base : Nat) (ds : List Char) : Nat :=
  ds.foldl (fun n d => n * base + (hexValue d).getD 0) 0

def sign : List Char → Bool × List Char
  | '-' :: s => (true, s)
  | '+' :: s => (false, s)
  | s => (false, s)

/-- No zero stands before another digit. -/
def whole (s : List Char) : Option (List Char × List Char) :=
  match s with
  | '0' :: s => some (['0'], s)
  | s => digits Char.isDigit s

def int64 (n : Int) (rest : List Char) : Option (Json × List Char) :=
  if -9223372036854775808 ≤ n && n ≤ 9223372036854775807 then some (.int n, rest) else none

def integer (s : List Char) : Option (Json × List Char) :=
  match s with
  | '0' :: 'x' :: s => do
    let (ds, r) ← digits (fun c => (hexValue c).isSome) s
    int64 (valueIn 16 ds) r
  | '0' :: 'o' :: s => do
    let (ds, r) ← digits (fun c => '0' ≤ c && c ≤ '7') s
    int64 (valueIn 8 ds) r
  | '0' :: 'b' :: s => do
    let (ds, r) ← digits (fun c => c = '0' || c = '1') s
    int64 (valueIn 2 ds) r
  | s => do
    let (negative, s) := sign s
    let (ds, r) ← whole s
    int64 (if negative then -(valueIn 10 ds : Int) else valueIn 10 ds) r

/-- The least number that a double can not hold: half a unit past the largest one. -/
def tooLarge : Nat := Nat.pow 2 1024 - Nat.pow 2 970

/-- The number `m · 10 ^ e` is past the largest double. -/
def isTooLarge (m : Nat) (e : Int) : Bool :=
  let size : Int := (Nat.toDigits 10 m).length + e
  if m = 0 || size < 300 then false
  else if 400 < size then true
  else if 0 ≤ e then tooLarge ≤ m * Nat.pow 10 e.toNat
  else tooLarge * Nat.pow 10 (-e).toNat ≤ m

def float (s : List Char) : Option (Json × List Char) := do
  let (negative, s') := sign s
  match s' with
  | 'i' :: 'n' :: 'f' :: r | 'n' :: 'a' :: 'n' :: r =>
    some (.decimal (String.ofList (s.take (s.length - r.length))), r)
  | _ =>
    let (ds, r) ← whole s'
    let (fs, r) ← match r with
      | '.' :: r' => digits Char.isDigit r'
      | _ => some ([], r)
    let (e, r) ← match r with
      | 'e' :: r' | 'E' :: r' =>
        let (below, r') := sign r'
        (digits Char.isDigit r').map fun (es, r) =>
          (some (if below then -(valueIn 10 es : Int) else valueIn 10 es), r)
      | _ => some (none, r)
    if fs.isEmpty && e.isNone then none
    else if !negative && isTooLarge (valueIn 10 (ds ++ fs)) (e.getD 0 - fs.length) then none
    else some (.decimal (String.ofList (s.take (s.length - r.length))), r)

/-! ## Dates and times -/

/-- `n` digits with a value in the given bounds. -/
def fixed (n low high : Nat) (s : List Char) : Option (Nat × List Char) :=
  let ds := (s.take n).takeWhile Char.isDigit
  let v := valueIn 10 ds
  if ds.length = n && low ≤ v && v ≤ high then some (v, s.drop n) else none

def time (s : List Char) : Option (List Char) := do
  let (_, s) ← fixed 2 0 23 s
  let s ← Instant.literal ':' s
  let (_, s) ← fixed 2 0 59 s
  let s ← Instant.literal ':' s
  let (_, s) ← fixed 2 0 60 s
  match s with
  | '.' :: s' =>
    match s'.takeWhile Char.isDigit with
    | [] => some s
    | ds => some (s'.drop ds.length)
  | _ => some s

def zone (s : List Char) : List Char :=
  match s with
  | 'Z' :: r | 'z' :: r => r
  | c :: r =>
    if c = '+' || c = '-' then
      (do
        let (_, r) ← fixed 2 0 23 r
        let r ← Instant.literal ':' r
        let (_, r) ← fixed 2 0 59 r
        some r).getD s
    else s
  | [] => []

def date (s : List Char) : Option (List Char) := do
  let (y, s) ← fixed 4 0 9999 s
  let s ← Instant.literal '-' s
  let (m, s) ← fixed 2 1 12 s
  let s ← Instant.literal '-' s
  let (_, s) ← fixed 2 1 (Instant.monthLength y m) s
  some s

def dateTime (s : List Char) : Option (List Char) :=
  match date s with
  | some r =>
    match r with
    | c :: r' =>
      if c = 'T' || c = 't' || c = ' ' then
        match time r' with
        | some r'' => some (zone r'')
        | none => some r
      else some r
    | [] => some []
  | none => time s

/-- A date is a value of its own kind: an object with one field that no setting has. -/
def moment (s : List Char) : Option (Json × List Char) :=
  (dateTime s).map fun r =>
    (.obj [("$datetime", .str (String.ofList (s.take (s.length - r.length))))], r)

/-! ## Any scalar -/

def word (w : List Char) (s : List Char) : Option (List Char) :=
  if w.isPrefixOf s then some (s.drop w.length) else none

def scalar (s : List Char) : Option (Json × List Char) :=
  match s with
  | [] => none
  | c :: _ =>
    if c = '"' || c = '\'' then (string s).map fun (t, r) => (.str t, r)
    else if c = 't' then (word "true".toList s).map (.bool true, ·)
    else if c = 'f' then (word "false".toList s).map (.bool false, ·)
    else (moment s <|> float s <|> integer s)

end Keyspace.Toml
