import Keyspace.Toml.Scalar

/-!
# TOML documents

A document is a sequence of statements: table headers, headers of arrays of tables, and settings.
`document?` reads them and builds the tree, in which nothing may be defined twice.
-/

namespace Keyspace.Toml

/-! ## The tree -/

inductive Node
  /-- A value that is complete as it stands. -/
  | value (j : Json)
  /-- A table that more settings may join. It is implicit if only named on the way to another, and
  dotted if that was in the key of a setting. -/
  | table (implicit dotted : Bool) (fields : List (String × Node))
  | tables (items : List (List (String × Node)))

abbrev Fields := List (String × Node)

namespace Fields

def get? (fs : Fields) (key : String) : Option Node := (fs.find? (·.1 = key)).map (·.2)

def set (fs : Fields) (key : String) (n : Node) : Fields :=
  if fs.any (·.1 = key) then fs.map fun e => if e.1 = key then (key, n) else e
  else fs ++ [(key, n)]

/-- The last of an array of tables, changed. -/
def mapLast? (f : Fields → Option Fields) : List Fields → Option (List Fields)
  | [] => none
  | [fs] => (f fs).map ([·])
  | fs :: rest => (mapLast? f rest).map (fs :: ·)

/-- Sets `path.key`. Tables on the way come into being; one with a header of its own is closed. -/
def assign? (key : String) (j : Json) : List String → Fields → Option Fields
  | [], fs => if (get? fs key).isSome then none else some (fs ++ [(key, .value j)])
  | p :: path, fs =>
    match get? fs p with
    | none => (assign? key j path []).map fun inner => fs.set p (.table true true inner)
    | some (.value _) => none
    | some (.tables items) =>
      if path.isEmpty then none
      else (mapLast? (assign? key j path) items).map fun items => fs.set p (.tables items)
    | some (.table implicit dotted inner) =>
      if !implicit || (path.isEmpty && !dotted) then none
      else (assign? key j path inner).map fun inner => fs.set p (.table implicit dotted inner)

/-- Changes the table that a header's path leads to. -/
def modify? (f : Fields → Option Fields) : List String → Fields → Option Fields
  | [], fs => f fs
  | p :: path, fs =>
    match get? fs p with
    | none => (modify? f path []).map fun inner => fs.set p (.table true false inner)
    | some (.value _) => none
    | some (.tables items) => (mapLast? (modify? f path) items).map fun items => fs.set p (.tables items)
    | some (.table implicit dotted inner) =>
      (modify? f path inner).map fun inner => fs.set p (.table implicit dotted inner)

/-- Begins a table, which may so far only have been named on the way to another. -/
def begin? (key : String) (fs : Fields) : Option Fields :=
  match get? fs key with
  | none => some (fs.set key (.table false false []))
  | some (.table true false inner) => some (fs.set key (.table false false inner))
  | some _ => none

/-- Begins the next of an array of tables. -/
def beginNext? (key : String) (fs : Fields) : Option Fields :=
  match get? fs key with
  | none => some (fs.set key (.tables [[]]))
  | some (.tables items) => some (fs.set key (.tables (items ++ [[]])))
  | some _ => none

end Fields

mutual

def Node.toJson : Node → Json
  | .value j => j
  | .table _ _ fields => .obj (fieldsToJson fields)
  | .tables items => .arr (itemsToJson items)

def fieldsToJson : List (String × Node) → List (String × Json)
  | [] => []
  | (k, n) :: fs => (k, n.toJson) :: fieldsToJson fs

def itemsToJson : List (List (String × Node)) → List Json
  | [] => []
  | fs :: rest => .obj (fieldsToJson fs) :: itemsToJson rest

end

/-! ## Keys -/

def isBareKey (c : Char) : Bool := c.isAlphanum || c = '_' || c = '-'

def simpleKey (s : List Char) : Option (String × List Char) :=
  match s with
  | '"' :: s => (basicString (s.length + 1) s).map fun (cs, r) => (String.ofList cs, r)
  | '\'' :: s => (literalString s).map fun (cs, r) => (String.ofList cs, r)
  | _ =>
    match s.takeWhile isBareKey with
    | [] => none
    | ds => some (String.ofList ds, s.drop ds.length)

/-- How deep arrays, tables and keys may be nested. -/
def depthLimit : Nat := 80

/-- A key of several parts, spaces around the points allowed. -/
def keyParts : Nat → List Char → Option (List String × List Char)
  | 0, _ => none
  | n + 1, s => do
    let (k, s) ← simpleKey (skipSpace s)
    match skipSpace s with
    | '.' :: s =>
      let (ks, s) ← keyParts n s
      some (k :: ks, s)
    | s => some ([k], s)

def key (s : List Char) : Option (List String × List Char) := do
  let (ks, s) ← keyParts (s.length + 1) s
  if ks.length < depthLimit then some (ks, s) else none

/-- The parts before the last, and the last. -/
def splitKey (ks : List String) : List String × String := (ks.dropLast, ks.getLast?.getD "")

/-! ## Values -/

def comment (s : List Char) : List Char :=
  match s with
  | '#' :: s => s.dropWhile isPrintable
  | s => s

def skipFiller : Nat → List Char → List Char
  | 0, s => s
  | n + 1, s =>
    match s with
    | '#' :: _ => skipFiller n (comment s)
    | _ =>
      match newline s with
      | some s => skipFiller n s
      | none =>
        match s with
        | c :: s' => if isSpace c then skipFiller n s' else s
        | [] => []

def filler (s : List Char) : List Char := skipFiller (s.length + 1) s

mutual

/-- A value at a nesting depth. -/
def value (depth : Nat) : Nat → List Char → Option (Json × List Char)
  | 0, _ => none
  | n + 1, s =>
    match s with
    | '[' :: s =>
      if depth + 1 < depthLimit then (items (depth + 1) n (filler s)).map fun (vs, r) => (.arr vs, r)
      else none
    | '\x7b' :: s =>
      if depth + 1 < depthLimit then
        match skipSpace s with
        | '\x7d' :: r => some (.obj [], r)
        | s => (settings (depth + 1) n [] s).map fun (fs, r) => (.obj (fieldsToJson fs), r)
      else none
    | s => scalar s

/-- The items of an array up to its end; a comma may follow the last. -/
def items (depth : Nat) : Nat → List Char → Option (List Json × List Char)
  | 0, _ => none
  | n + 1, s =>
    match s with
    | ']' :: r => some ([], r)
    | s =>
      match value depth n s with
      | none => none
      | some (v, s) =>
        match filler s with
        | ',' :: s => (items depth n (filler s)).map fun (vs, r) => (v :: vs, r)
        | ']' :: r => some ([v], r)
        | _ => none

/-- The settings of an inline table up to its end. -/
def settings (depth : Nat) : Nat → Fields → List Char → Option (Fields × List Char)
  | 0, _, _ => none
  | n + 1, fs, s =>
    match key s with
    | none => none
    | some (ks, s) =>
      match s with
      | '=' :: s =>
        match value depth n (skipSpace s) with
        | none => none
        | some (j, s) =>
          match fs.assign? (splitKey ks).2 j (splitKey ks).1 with
          | none => none
          | some fs =>
            match skipSpace s with
            | ',' :: s => settings depth n fs s
            | '\x7d' :: r => some (fs, r)
            | _ => none
      | _ => none

end

/-! ## Statements -/

inductive Statement
  | header (path : List String)
  | arrayHeader (path : List String)
  | setting (path : List String) (j : Json)

/-- The end of a line, with the comment before it. -/
def lineEnd (s : List Char) : Option (List Char) :=
  match comment (skipSpace s) with
  | [] => some []
  | s => newline s

def statement (s : List Char) : Option (Statement × List Char) :=
  match s with
  | '[' :: '[' :: s => do
    let (ks, s) ← key s
    match s with
    | ']' :: ']' :: s => some (.arrayHeader ks, s)
    | _ => none
  | '[' :: s => do
    let (ks, s) ← key s
    match s with
    | ']' :: s => some (.header ks, s)
    | _ => none
  | s => do
    let (ks, s) ← key s
    match s with
    | '=' :: s =>
      let s := skipSpace s
      let (j, s) ← value 0 (2 * s.length + 2) s
      some (.setting ks j, s)
    | _ => none

/-- The statements of a text, one to a line. -/
def statements : Nat → List Char → Option (List Statement)
  | 0, _ => none
  | n + 1, s =>
    match filler s with
    | [] => some []
    | s => do
      let (st, s) ← statement s
      let s ← lineEnd s
      let sts ← statements n s
      some (st :: sts)

/-- A tree under construction, and the path of the table that settings go to. -/
structure Draft where
  root : Fields
  current : List String

def Draft.step (d : Draft) : Statement → Option Draft
  | .header ks => do
    let (path, k) := splitKey ks
    return ⟨← d.root.modify? (Fields.begin? k) path, ks⟩
  | .arrayHeader ks => do
    let (path, k) := splitKey ks
    return ⟨← d.root.modify? (Fields.beginNext? k) path, ks⟩
  | .setting ks j => do
    let (path, k) := splitKey ks
    return { d with root := ← d.root.modify? (Fields.assign? k j path) d.current }

/-- The tree of a document, as an object; a byte order mark may come first. -/
def document? (text : String) : Option Json := do
  let s := match text.toList with
    | '\ufeff' :: s => s
    | s => s
  let sts ← statements (s.length + 1) s
  let d ← sts.foldlM Draft.step ⟨[], []⟩
  return (Node.table false false d.root).toJson

end Keyspace.Toml
