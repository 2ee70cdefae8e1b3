import Keyspace.Text.Utf8

/-!
# Spans of keys

A span is one key, the keys from `first` up to but without `stop`, or, with the stop `[0]`, all keys
from `first` on.
-/

namespace Keyspace

structure Span where
  first : Bytes
  stop : Option Bytes
  deriving DecidableEq, Repr

/-- The least byte string above every extension of `p`; `[0]`, for no bound, if there is none. -/
def afterPrefix (p : Bytes) : Bytes :=
  match p.reverse.dropWhile (· = 0xff) with
  | [] => [0]
  | b :: rest => ((b + 1) :: rest).reverse

namespace Span

def single (key : Bytes) : Span := ⟨key, none⟩

def interval (first stop : Bytes) : Span := ⟨first, some stop⟩

def under (p : Bytes) : Span := ⟨p, some (afterPrefix p)⟩

def contains (s : Span) (key : Bytes) : Bool :=
  match s.stop with
  | none => key = s.first
  | some [0] => !Bytes.lt key s.first
  | some stop => !Bytes.lt key s.first && Bytes.lt key stop

end Span

end Keyspace
