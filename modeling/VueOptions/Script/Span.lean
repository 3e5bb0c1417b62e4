import VueOptions.Text.Offset

/-!
Spans: where a piece of a text stands, as two byte offsets.
-/

set_option autoImplicit false

namespace VueOptions.Script

/-- The bytes from `start` up to, not including, `stop`. -/
structure Span where
  start : Nat
  stop : Nat
  deriving DecidableEq, Repr

namespace Span

def of (s : Span) (text : List Char) : List Char := Text.slice text s.start s.stop

def text (s : Span) (source : List Char) : String := String.ofList (s.of source)

def contains (s : Span) (offset : Nat) : Bool := s.start ≤ offset && offset < s.stop

end Span

end VueOptions.Script
