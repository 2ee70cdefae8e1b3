import Keyspace.Text.Blank

/-!
# Instants

An instant is a point of universal time with nanoseconds. It is written in the RFC 3339 form, in UTC
and with no, three, six or nine fraction digits, as few as lose nothing; `ofText?` reads that form
with any offset, one-digit fields and blanks around the parts.
-/

namespace Keyspace

structure Instant where
  /-- Since the start of 1970. -/
  seconds : Int
  /-- A leap second is the one before it with a billion nanoseconds more. -/
  nanos : Nat
  deriving DecidableEq, Repr

namespace Instant

/-! ## The calendar -/

structure Date where
  year : Int
  month : Nat
  day : Nat
  deriving DecidableEq, Repr

def isLeapYear (y : Int) : Bool := y % 4 = 0 && (y % 100 ≠ 0 || y % 400 = 0)

def monthLength (y : Int) (m : Nat) : Nat :=
  if m = 2 then (if isLeapYear y then 29 else 28)
  else if m = 4 || m = 6 || m = 9 || m = 11 then 30
  else 31

namespace Date

/-- The years that dates may have. -/
def inCalendar (y : Int) : Bool := -262143 ≤ y && y ≤ 262142

def isValid (d : Date) : Bool :=
  inCalendar d.year && 1 ≤ d.month && d.month ≤ 12 && 1 ≤ d.day && d.day ≤ monthLength d.year d.month

/-- Days since the start of 1970. Years are counted from March, so a leap day ends its year. -/
def toDays (d : Date) : Int :=
  let y := if d.month ≤ 2 then d.year - 1 else d.year
  let era := y / 400
  let yearOfEra := y % 400
  let dayOfYear := (153 * ((d.month + 9) % 12) + 2) / 5 + d.day - 1
  era * 146097 + (yearOfEra * 365 + yearOfEra / 4 - yearOfEra / 100 + dayOfYear) - 719468

def ofDays (n : Int) : Date :=
  let n := n + 719468
  let era := n / 146097
  let dayOfEra := n % 146097
  let yearOfEra := (dayOfEra - dayOfEra / 1460 + dayOfEra / 36524 - dayOfEra / 146096) / 365
  let dayOfYear := (dayOfEra - (365 * yearOfEra + yearOfEra / 4 - yearOfEra / 100)).toNat
  let m := (5 * dayOfYear + 2) / 153
  let month := if m < 10 then m + 3 else m - 9
  ⟨yearOfEra + era * 400 + (if month ≤ 2 then 1 else 0), month, dayOfYear - (153 * m + 2) / 5 + 1⟩

end Date

/-! ## Writing -/

def padded (width n : Nat) : String :=
  let ds := Nat.toDigits 10 n
  String.ofList (List.replicate (width - ds.length) '0' ++ ds)

/-- A sign and five places for the years that four digits can not hold. -/
def yearText (y : Int) : String :=
  if 0 ≤ y && y ≤ 9999 then padded 4 y.toNat
  else (if y < 0 then "-" else "+") ++ padded 4 y.natAbs

def fractionText (nanos : Nat) : String :=
  if nanos = 0 then ""
  else if nanos % 1000000 = 0 then "." ++ padded 3 (nanos / 1000000)
  else if nanos % 1000 = 0 then "." ++ padded 6 (nanos / 1000)
  else "." ++ padded 9 nanos

def toText (t : Instant) : String :=
  let d := Date.ofDays (t.seconds / 86400)
  let s := (t.seconds % 86400).toNat
  let leap := t.nanos / 1000000000
  yearText d.year ++ "-" ++ padded 2 d.month ++ "-" ++ padded 2 d.day
    ++ "T" ++ padded 2 (s / 3600) ++ ":" ++ padded 2 (s / 60 % 60) ++ ":" ++ padded 2 (s % 60 + leap)
    ++ fractionText (t.nanos % 1000000000) ++ "Z"

/-! ## Reading

Each step takes something off the front and returns the rest. -/

open Text (skipBlank)

def digitsValue (ds : List Char) : Nat := ds.foldl (fun n c => n * 10 + (c.toNat - 48)) 0

/-- One digit and at most `width`, blanks before them allowed. -/
def number (width : Nat) (s : List Char) : Option (Nat × List Char) :=
  let ds := (s.take width).takeWhile Char.isDigit
  if ds.isEmpty then none else some (digitsValue ds, s.drop ds.length)

def literal (c : Char) : List Char → Option (List Char)
  | d :: s => if c = d then some s else none
  | [] => none

/-- A signed year may have any number of digits. -/
def year (s : List Char) : Option (Int × List Char) :=
  match skipBlank s with
  | '-' :: s => (number s.length s).map fun (n, r) => (-n, r)
  | '+' :: s => (number s.length s).map fun (n, r) => ((n : Int), r)
  | s => (number 4 s).map fun (n, r) => ((n : Int), r)

def field (s : List Char) : Option (Nat × List Char) := number 2 (skipBlank s)

def date (s : List Char) : Option (Date × List Char) := do
  let (y, s) ← year s
  let s ← literal '-' (skipBlank s)
  let (m, s) ← field s
  let s ← literal '-' (skipBlank s)
  let (d, s) ← field s
  return (⟨y, m, d⟩, s)

/-- Nanoseconds after a point; digits past the ninth say nothing. -/
def fraction (s : List Char) : Option (Nat × List Char) :=
  match s with
  | '.' :: s =>
    let ds := s.takeWhile Char.isDigit
    if ds.isEmpty then none
    else
      let kept := ds.take 9
      some (digitsValue kept * Nat.pow 10 (9 - kept.length), s.dropWhile Char.isDigit)
  | s => some (0, s)

/-- Seconds of the day, and nanoseconds; second 60 is a leap second. -/
def timeOfDay (s : List Char) : Option (Nat × Nat × List Char) := do
  let (h, s) ← field s
  let s ← literal ':' (skipBlank s)
  let (m, s) ← field s
  let s ← literal ':' (skipBlank s)
  let (sec, s) ← field s
  let (nanos, s) ← fraction s
  if h ≤ 23 && m ≤ 59 && sec ≤ 60 then
    if sec = 60 then some (h * 3600 + m * 60 + 59, 1000000000 + nanos, s)
    else some (h * 3600 + m * 60 + sec, nanos, s)
  else none

def pair : List Char → Option (Nat × List Char)
  | a :: b :: s => if a.isDigit && b.isDigit then some (digitsValue [a, b], s) else none
  | _ => none

/-- Seconds east of Greenwich. -/
def offset (s : List Char) : Option (Int × List Char) :=
  match s with
  | 'Z' :: s | 'z' :: s => some (0, s)
  | u :: t :: c :: s =>
    if u.toUpper = 'U' && t.toUpper = 'T' && c.toUpper = 'C' then some (0, s)
    else do
      let negative ← if u = '+' then some false else if u = '-' || u = '\u2212' then some true else none
      let (h, s) ← pair (t :: c :: s)
      let (m, s) ← pair (s.dropWhile fun c => c = ':' || Text.isBlank c)
      let n := h * 3600 + m * 60
      if m ≤ 59 && n < 86400 then some (if negative then -(n : Int) else n, s) else none
  | _ => none

def ofText? (text : String) : Option Instant := do
  let (d, s) ← date text.toList
  let s ← match s with
    | c :: s => if c = 'T' || c = 't' || c = ' ' then some s else none
    | [] => none
  let (sec, nanos, s) ← timeOfDay s
  let (east, s) ← offset (skipBlank s)
  let t : Instant := ⟨d.toDays * 86400 + sec - east, nanos⟩
  if (skipBlank s).isEmpty && d.isValid && Date.inCalendar (Date.ofDays (t.seconds / 86400)).year then some t
  else none

end Instant

end Keyspace
