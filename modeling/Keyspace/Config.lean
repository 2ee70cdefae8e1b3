import Keyspace.Retry

/-!
# Client configuration

Every setting has a default. `fault?` names the first setting that is out of its range.
-/

namespace Keyspace

/-- The connection settings are handed on to a driver of a remote store. Times are in
milliseconds. -/
structure Connection where
  timeout : Nat
  username : Option String
  password : Option String
  deriving DecidableEq, Repr

/-- What a lock request takes for a setting that it leaves at zero. The time to live is in seconds,
the others in milliseconds. -/
structure LockDefaults where
  ttl : Int
  timeout : Nat
  interval : Nat
  deriving DecidableEq, Repr

structure Config where
  endpoints : List String
  retry : Retry.Policy
  connection : Connection
  /-- The most bytes that one chunk of a chunked value holds. -/
  chunkSize : Nat
  lock : LockDefaults
  logLevel : String
  deriving DecidableEq, Repr

namespace Config

def standard : Config where
  endpoints := []
  retry := .standard
  connection := ⟨5000, none, none⟩
  chunkSize := 1048576
  lock := ⟨600, 30000, 500⟩
  logLevel := "info"

instance : Inhabited Config := ⟨standard⟩

def logLevels : List String := ["trace", "debug", "info", "warn", "error"]

inductive Fault
  | noRetryInterval
  | noRequestTimeout
  | noChunkSize
  | lockTtl (ttl : Int)
  | noLockTimeout
  | noLockInterval
  | logLevel (level : String)
  deriving DecidableEq, Repr

def Fault.message : Fault → String
  | noRetryInterval => "retry.retry_interval_ms must be > 0"
  | noRequestTimeout => "retry.request_timeout_ms must be > 0"
  | noChunkSize => "chunking.chunk_size must be > 0"
  | lockTtl ttl => "lock.default_ttl_seconds must be > 0, got: " ++ toString ttl
  | noLockTimeout => "lock.default_timeout_ms must be > 0"
  | noLockInterval => "lock.default_retry_interval_ms must be > 0"
  | logLevel level =>
    "telemetry.log_level must be one of [" ++ ", ".intercalate (logLevels.map fun l => "\"" ++ l ++ "\"")
      ++ "], got: " ++ level

def fault? (c : Config) : Option Fault :=
  if c.retry.interval = 0 then some .noRetryInterval
  else if c.retry.timeout = 0 then some .noRequestTimeout
  else if c.chunkSize = 0 then some .noChunkSize
  else if c.lock.ttl ≤ 0 then some (.lockTtl c.lock.ttl)
  else if c.lock.timeout = 0 then some .noLockTimeout
  else if c.lock.interval = 0 then some .noLockInterval
  else if !logLevels.contains c.logLevel then some (.logLevel c.logLevel)
  else none

end Config

end Keyspace
