import ProcessContracts.Narration.Excerpt

/-!
# Lines of an excerpt

Only a line feed ends a shown line, alone or after a carriage return; a carriage return elsewhere
is part of the line. Columns count characters.
-/

namespace ProcessContracts

structure ShownLine where
  number : Nat
  /-- Where the line starts in the text, in bytes. -/
  offset : Nat
  text : List Char
  /-- The text's last character ends this line. -/
  isFinal : Bool

namespace ShownLine

def stop (line : ShownLine) : Nat := line.offset + byteLength line.text

/-- The lines of the characters from `offset` on, when `above` lines came before and `read` has
been read of the next one, the latest character first. A last line without an end counts as well,
unless it stops at a carriage return: then it has the number of the line above. -/
def split (above offset : Nat) (read : List Char) : List Char → List ShownLine
  | [] => []
  | '\r' :: '\n' :: rest =>
      ⟨above + 1, offset, read.reverse, rest.isEmpty⟩ ::
        split (above + 1) (offset + byteLength read + 2) [] rest
  | '\n' :: rest =>
      ⟨above + 1, offset, read.reverse, rest.isEmpty⟩ ::
        split (above + 1) (offset + byteLength read + 1) [] rest
  | ['\r'] => [⟨above, offset, ('\r' :: read).reverse, true⟩]
  | [c] => [⟨above + 1, offset, (c :: read).reverse, false⟩]
  | c :: rest => split above offset (c :: read) rest

def isControl (c : Char) : Bool := c.toNat < 0x20 || (0x7f ≤ c.toNat && c.toNat < 0xa0)

/-- How many columns of the line lie before a place of the text. Control characters have a column
each unless the place is past the line or inside a character. -/
def column (line : ShownLine) (place : Nat) : Nat :=
  let before := charsBefore (place - line.offset) line.text
  if byteLength before = place - line.offset then before.length
  else (before.filter (!isControl ·)).length

/-- Where a region lies in a line, with columns from one. -/
inductive Placement where
  | within (first last : Nat)
  | starting (column : Nat)
  | ending (column : Nat)
deriving DecidableEq

/-- The place of a region in the line, if it starts or ends there. -/
def placement (line : ShownLine) (region : Region) : Option Placement :=
  let startsHere := line.offset ≤ region.offset
  let endsHere := line.isFinal || region.stop ≤ line.stop
  let first := line.column region.offset + 1
  let last := line.column region.stop
  if startsHere && endsHere then some (.within first (if region.length = 0 then first else last))
  else if startsHere && region.offset ≤ line.stop then some (.starting first)
  else if endsHere && line.offset ≤ region.stop then some (.ending last)
  else none

def Placement.text (number : Nat) : Placement → String
  | .within first last =>
      if first = last then s!"label at line {number}, column {first}"
      else s!"label at line {number}, columns {first} to {last}"
  | .starting column => s!"label starting at line {number}, column {column}"
  | .ending column => s!"label ending at line {number}, column {column}"

/-- The line, and below it where the labelled region lies in it. -/
def describe (line : ShownLine) (region : Region) (label : String) : String :=
  s!"snippet line {line.number}: " ++ String.ofList line.text ++ "\n" ++
    match line.placement region with
    | some placement => "    " ++ placement.text line.number ++ ": " ++ label ++ "\n"
    | none => ""

end ShownLine

end ProcessContracts
