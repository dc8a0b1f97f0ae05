/-!
# Positions in the source text
-/

namespace ProcessContracts

/-- A range of bytes of the source text, `stop` excluded. -/
structure Span where
  start : Nat := 0
  stop : Nat := 0
deriving DecidableEq

namespace Span

/-- An inverted span has length zero. -/
def length (span : Span) : Nat := span.stop - span.start

def isEmpty (span : Span) : Bool := span.length == 0

/-- Whether the span ends inside a text of `size` bytes. -/
def fits (span : Span) (size : Nat) : Bool := span.stop ≤ size

end Span

/-- A value and the place it was written at. -/
structure Spanned (α : Type) where
  value : α
  span : Span := {}

/-- The text a program was read from. -/
structure SourceText where
  filename : String
  text : String
deriving DecidableEq

def SourceText.size (source : SourceText) : Nat := source.text.utf8ByteSize

end ProcessContracts
