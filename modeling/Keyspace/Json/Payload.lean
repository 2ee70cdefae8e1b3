import Keyspace.Chunked.Info
import Keyspace.Config
import Keyspace.Diff.Frame
import Keyspace.Json.Shape
import Keyspace.Lock.Lock

/-!
# JSON forms

The forms in which diffs, frames, transactions, records and configurations are written and read.
-/

namespace Keyspace

open Json (int64? nat64? bytes? str? ofBytes)

/-! ## Diffs and frames -/

def ValueMap.toJson (m : ValueMap) : Json := .obj (m.entries.map fun e => (e.1, ofBytes e.2))

def ValueMap.ofJson? : Json → Option ValueMap := Json.map? bytes?

namespace Diff

def toJson (d : Diff) : Json :=
  .obj [("inserts", ValueMap.toJson d.inserts), ("updates", ValueMap.toJson d.updates),
    ("deletions", .arr (d.deletions.keys.map .str))]

def ofJson? (j : Json) : Option Diff := do
  let g ← j.given? ["inserts", "updates", "deletions"] true
  return ⟨← g.required "inserts" ValueMap.ofJson?, ← g.required "updates" ValueMap.ofJson?,
    ← g.required "deletions" fun j => (j.arr? str?).map SortedSet.ofList⟩

namespace ChangeKind

def names : List (String × ChangeKind) :=
  [("Unspecified", unspecified), ("Insert", insert), ("Update", update), ("Deletion", deletion)]

def name : ChangeKind → String
  | unspecified => "Unspecified"
  | insert => "Insert"
  | update => "Update"
  | deletion => "Deletion"

end ChangeKind

namespace Change

def toJson (c : Change) : Json :=
  .obj [("change_type", .str c.kind.name), ("key", .str c.key), ("value", ofBytes c.value)]

def ofJson? (j : Json) : Option Change := do
  let g ← j.given? ["change_type", "key", "value"] true
  return ⟨← g.required "change_type" (Json.name? ChangeKind.names), ← g.required "key" str?,
    ← g.required "value" bytes?⟩

end Change

namespace Overview

def toJson (o : Overview) : Json :=
  .obj [("inserts", .int o.inserts), ("updates", .int o.updates), ("deletions", .int o.deletions)]

def ofJson? (j : Json) : Option Overview := do
  let g ← j.given? ["inserts", "updates", "deletions"] true
  return ⟨← g.required "inserts" nat64?, ← g.required "updates" nat64?,
    ← g.required "deletions" nat64?⟩

end Overview

namespace Frame

def toJson : Frame → Json
  | overview o => .obj [("Overview", o.toJson)]
  | changes cs => .obj [("Changes", .arr (cs.map Change.toJson))]

def ofJson? (j : Json) : Option Frame := do
  match ← j.variant? with
  | ("Overview", some v) => (Overview.ofJson? v).map overview
  | ("Changes", some v) => (v.arr? Change.ofJson?).map changes
  | _ => none

end Frame

end Diff

/-! ## Transactions -/

namespace Relation

def names : List (String × Relation) :=
  [("Equal", equal), ("NotEqual", notEqual), ("Greater", greater), ("Less", less)]

def name : Relation → String
  | equal => "Equal"
  | notEqual => "NotEqual"
  | greater => "Greater"
  | less => "Less"

end Relation

namespace Target

def toJson : Target → Json
  | version n => .obj [("Version", .int n)]
  | createRevision n => .obj [("CreateRevision", .int n)]
  | modRevision n => .obj [("ModRevision", .int n)]
  | value v => .obj [("Value", ofBytes v)]
  | lease n => .obj [("Lease", .int n)]

def ofJson? (j : Json) : Option Target := do
  match ← j.variant? with
  | ("Version", some v) => v.int64?.map version
  | ("CreateRevision", some v) => v.int64?.map createRevision
  | ("ModRevision", some v) => v.int64?.map modRevision
  | ("Value", some v) => v.bytes?.map value
  | ("Lease", some v) => v.int64?.map lease
  | _ => none

end Target

namespace Condition

def toJson (c : Condition) : Json :=
  .obj [("key", ofBytes c.key), ("target", c.target.toJson), ("op", .str c.relation.name)]

def ofJson? (j : Json) : Option Condition := do
  let g ← j.given? ["key", "target", "op"] true
  return ⟨← g.required "key" bytes?, ← g.required "target" Target.ofJson?,
    ← g.required "op" (Json.name? Relation.names)⟩

end Condition

namespace Op

def toJson : Op → Json
  | put key value lease =>
    .obj [("Put", .obj [("key", ofBytes key), ("value", ofBytes value),
      ("lease", Json.ofOption .int lease)])]
  | delete span =>
    .obj [("DeleteRange", .obj [("key", ofBytes span.first),
      ("range_end", Json.ofOption ofBytes span.stop)])]

def ofJson? (j : Json) : Option Op := do
  match ← j.variant? with
  | ("Put", some v) =>
    let g ← v.given? ["key", "value", "lease"] true
    return put (← g.required "key" bytes?) (← g.required "value" bytes?) (← g.optional "lease" int64?)
  | ("DeleteRange", some v) =>
    let g ← v.given? ["key", "range_end"] true
    return delete ⟨← g.required "key" bytes?, ← g.optional "range_end" bytes?⟩
  | _ => none

end Op

namespace Txn

def toJson (t : Txn) : Json :=
  .obj [("compares", .arr (t.conditions.map Condition.toJson)),
    ("success", .arr (t.success.map Op.toJson)), ("failure", .arr (t.failure.map Op.toJson))]

def ofJson? (j : Json) : Option Txn := do
  let g ← j.given? ["compares", "success", "failure"] true
  return ⟨← g.required "compares" (Json.arr? Condition.ofJson?),
    ← g.required "success" (Json.arr? Op.ofJson?), ← g.required "failure" (Json.arr? Op.ofJson?)⟩

end Txn

/-! ## Records -/

namespace EventKind

def names : List (String × EventKind) := [("Put", put), ("Delete", delete)]

def name : EventKind → String
  | put => "Put"
  | delete => "Delete"

end EventKind

namespace Record

def toJson (r : Record) : Json :=
  .obj [("key", ofBytes r.key), ("value", ofBytes r.value), ("create_revision", .int r.createRevision),
    ("mod_revision", .int r.modRevision), ("version", .int r.version), ("lease", .int r.lease)]

def ofJson? (j : Json) : Option Record := do
  let g ← j.given? ["key", "value", "create_revision", "mod_revision", "version", "lease"] true
  return ⟨← g.required "key" bytes?, ← g.required "value" bytes?,
    ← g.required "create_revision" int64?, ← g.required "mod_revision" int64?,
    ← g.required "version" int64?, ← g.required "lease" int64?⟩

end Record

namespace Entry

def toJson (e : Entry) : Json :=
  .obj [("key", .str e.key), ("value", ofBytes e.value), ("version", .int e.version),
    ("create_revision", .int e.createRevision), ("mod_revision", .int e.modRevision),
    ("lease", .int e.lease)]

def ofJson? (j : Json) : Option Entry := do
  let g ← j.given? ["key", "value", "version", "create_revision", "mod_revision", "lease"] true
  return ⟨← g.required "key" str?, ← g.required "value" bytes?, ← g.required "version" int64?,
    ← g.required "create_revision" int64?, ← g.required "mod_revision" int64?,
    ← g.required "lease" int64?⟩

end Entry

/-! ## Configurations

`exact` refuses sections that are written as arrays with too many items. -/

namespace Config

def retryOfJson? (exact : Bool) (j : Json) : Option Retry.Policy := do
  let g ← j.given? ["retries", "retry_interval_ms", "request_timeout_ms"] exact
  let d := standard.retry
  return ⟨← g.withDefault "retries" nat64? d.retries,
    ← g.withDefault "retry_interval_ms" nat64? d.interval,
    ← g.withDefault "request_timeout_ms" nat64? d.timeout⟩

def connectionOfJson? (exact : Bool) (j : Json) : Option Connection := do
  let g ← j.given? ["connection_timeout_ms", "username", "password"] exact
  let d := standard.connection
  return ⟨← g.withDefault "connection_timeout_ms" nat64? d.timeout,
    ← g.withDefault "username" (Json.nullable? str?) d.username,
    ← g.withDefault "password" (Json.nullable? str?) d.password⟩

def chunkSizeOfJson? (exact : Bool) (j : Json) : Option Nat := do
  let g ← j.given? ["chunk_size"] exact
  g.withDefault "chunk_size" nat64? standard.chunkSize

def lockOfJson? (exact : Bool) (j : Json) : Option LockDefaults := do
  let g ← j.given?
    ["default_ttl_seconds", "default_timeout_ms", "default_retry_interval_ms"] exact
  let d := standard.lock
  return ⟨← g.withDefault "default_ttl_seconds" int64? d.ttl,
    ← g.withDefault "default_timeout_ms" nat64? d.timeout,
    ← g.withDefault "default_retry_interval_ms" nat64? d.interval⟩

def logLevelOfJson? (exact : Bool) (j : Json) : Option String := do
  let g ← j.given? ["log_level"] exact
  g.withDefault "log_level" str? standard.logLevel

def ofJson? (exact : Bool) (j : Json) : Option Config := do
  let g ← j.given? ["endpoints", "retry", "connection", "chunking", "lock", "telemetry"] exact
  return ⟨← g.withDefault "endpoints" (Json.arr? str?) standard.endpoints,
    ← g.withDefault "retry" (retryOfJson? exact) standard.retry,
    ← g.withDefault "connection" (connectionOfJson? exact) standard.connection,
    ← g.withDefault "chunking" (chunkSizeOfJson? exact) standard.chunkSize,
    ← g.withDefault "lock" (lockOfJson? exact) standard.lock,
    ← g.withDefault "telemetry" (logLevelOfJson? exact) standard.logLevel⟩

def toJson (c : Config) : Json :=
  .obj [("endpoints", .arr (c.endpoints.map .str)),
    ("retry", .obj [("retries", .int c.retry.retries), ("retry_interval_ms", .int c.retry.interval),
      ("request_timeout_ms", .int c.retry.timeout)]),
    ("connection", .obj [("connection_timeout_ms", .int c.connection.timeout),
      ("username", Json.ofOption .str c.connection.username),
      ("password", Json.ofOption .str c.connection.password)]),
    ("chunking", .obj [("chunk_size", .int c.chunkSize)]),
    ("lock", .obj [("default_ttl_seconds", .int c.lock.ttl), ("default_timeout_ms", .int c.lock.timeout),
      ("default_retry_interval_ms", .int c.lock.interval)]),
    ("telemetry", .obj [("log_level", .str c.logLevel)])]

end Config

/-! ## By name -/

/-- For each named form: reading a value in that form and writing it again. -/
def forms : List (String × (Json → Option Json)) :=
  [("KeyDiff", fun j => (Diff.ofJson? j).map Diff.toJson),
    ("DiffFrame", fun j => (Diff.Frame.ofJson? j).map Diff.Frame.toJson),
    ("TxnRequest", fun j => (Txn.ofJson? j).map Txn.toJson),
    ("Compare", fun j => (Condition.ofJson? j).map Condition.toJson),
    ("ChunkedKeyInfo", fun j => (Chunked.Info.ofJson? j).map Chunked.Info.toJson),
    ("Lock", fun j => (Lock.ofJson? j).map Lock.toJson),
    ("KeyInfo", fun j => (Entry.ofJson? j).map Entry.toJson),
    ("KeyValue", fun j => (Record.ofJson? j).map Record.toJson),
    ("EventType", fun j => (Json.name? EventKind.names j).map fun k => .str k.name),
    ("ClientConfig", fun j => (Config.ofJson? true j).map Config.toJson)]

/-- The text of the named form, read and written again. -/
def Json.normalize? (form text : String) : Option String := do
  let (_, f) ← forms.find? (·.1 = form)
  let j ← Json.ofString? text
  (← f j).render

end Keyspace
