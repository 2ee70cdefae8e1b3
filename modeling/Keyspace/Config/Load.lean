import Keyspace.Json.Payload
import Keyspace.Toml.Document

/-!
# Loading a configuration

A configuration is a TOML document whose settings are in their ranges.
-/

namespace Keyspace.Config

inductive LoadFault
  | noFile (path : String)
  | malformed
  | setting (fault : Fault)
  deriving DecidableEq, Repr

def LoadFault.message : LoadFault → String
  | noFile path => "failed to read config file: " ++ path
  | malformed => "failed to parse config"
  | setting fault => fault.message

def ofToml (text : String) : Except LoadFault Config :=
  match (Toml.document? text).bind (ofJson? false) with
  | none => .error .malformed
  | some c =>
    match c.fault? with
    | none => .ok c
    | some f => .error (.setting f)

/-- From the content of the file at `path`, if it has any that is text. -/
def ofFile (path : String) (content : Option String) : Except LoadFault Config :=
  match content with
  | none => .error (.noFile path)
  | some text => ofToml text

end Keyspace.Config
