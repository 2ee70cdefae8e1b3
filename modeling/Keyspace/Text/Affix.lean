/-!
# Beginnings of text

Text is cut by characters. A beginning that is not there is not cut off.
-/

namespace Keyspace.Text

def startsWith (s head : String) : Bool := head.toList.isPrefixOf s.toList

/-- `s` without `head` at its start, if it starts so. -/
def trimStart (s head : String) : String :=
  if startsWith s head then String.ofList (s.toList.drop head.toList.length) else s

def occursIn (part : List Char) : List Char → Bool
  | [] => part.isEmpty
  | c :: cs => part.isPrefixOf (c :: cs) || occursIn part cs

/-- `part` occurs somewhere in `s`; the empty text does so everywhere. -/
def contains (s part : String) : Bool := occursIn part.toList s.toList

def take (s : String) (n : Nat) : String := String.ofList (s.toList.take n)

end Keyspace.Text
