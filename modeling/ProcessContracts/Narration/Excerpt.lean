/-!
# Excerpts of the source text

The part of a text to show around a region: the lines the region touches, the line before and the
line after. Offsets count bytes. A carriage return ends a line here, together with a line feed
after it if there is one.
-/

namespace ProcessContracts

/-- `length` bytes of a text from `offset` on. -/
structure Region where
  offset : Nat
  length : Nat
deriving DecidableEq

namespace Region

def stop (region : Region) : Nat := region.offset + region.length

/-- Where the region's last byte is; for an empty region, the byte before it. -/
def last (region : Region) : Nat := region.stop - 1

/-- The first place whose end of line can close the region's last line. -/
def closing (region : Region) : Nat := region.offset + (region.length - 1)

end Region

/-- A part of a text, and the number of lines before it. -/
structure Excerpt where
  start : Nat
  stop : Nat
  linesBefore : Nat
deriving DecidableEq

/-- How far the search for an excerpt has come. -/
structure Framing where
  offset : Nat := 0
  lineStart : Nat := 0
  /-- Where the last line that ends before the region starts. -/
  previous : Option Nat := none
  /-- Number of lines before that one. -/
  linesBefore : Nat := 0
  /-- The region's last byte has been met. -/
  passed : Bool := false
  /-- An end of line has been met since. -/
  closed : Bool := false

namespace Framing

/-- The excerpt that ends here, if the text reaches the region. -/
def finish (region : Region) (f : Framing) : Option Excerpt :=
  if region.last ≤ f.offset then some ⟨f.previous.getD 0, f.offset, f.linesBefore⟩ else none

/-- Takes a character of `width` bytes. -/
def take (region : Region) (width : Nat) (f : Framing) : Framing :=
  { f with
    offset := f.offset + width
    passed := f.passed || region.last < f.offset + width }

/-- Whether an end of line here comes after the region. -/
def follows (region : Region) (f : Framing) : Bool :=
  region.offset ≤ f.offset && region.closing ≤ f.offset && f.passed

/-- Takes the last byte of an end of line. -/
def endLine (region : Region) (f : Framing) : Framing :=
  let next := { f.take region 1 with lineStart := f.offset + 1 }
  if f.offset < region.offset then
    { next with
      previous := some f.lineStart
      linesBefore := f.linesBefore + if f.previous.isSome then 1 else 0 }
  else { next with closed := f.closed || f.follows region }

/-- Reads on until the line after the region's last one ends. -/
def scan (region : Region) (f : Framing) : List Char → Option Excerpt
  | [] => f.finish region
  | '\r' :: '\n' :: rest =>
      let f := { f with offset := f.offset + 1 }
      if f.closed && f.follows region then (f.take region 1).finish region
      else scan region (f.endLine region) rest
  | c :: rest =>
      if c = '\r' ∨ c = '\n' then
        if f.closed && f.follows region then (f.take region 1).finish region
        else scan region (f.endLine region) rest
      else scan region (f.take region c.utf8Size) rest

end Framing

/-- The excerpt around a region, unless the region lies past the end of the text. -/
def Excerpt.around (region : Region) (text : List Char) : Option Excerpt :=
  Framing.scan region {} text

/-- The characters that start before byte `n`. -/
def charsBefore (n : Nat) : List Char → List Char
  | [] => []
  | c :: cs => if n = 0 then [] else c :: charsBefore (n - c.utf8Size) cs

/-- The characters that start at byte `n` or later. -/
def charsFrom (n : Nat) : List Char → List Char
  | [] => []
  | c :: cs => if n = 0 then c :: cs else charsFrom (n - c.utf8Size) cs

def byteLength (cs : List Char) : Nat := cs.foldr (fun c size => c.utf8Size + size) 0

def Excerpt.cut (excerpt : Excerpt) (text : List Char) : List Char :=
  charsBefore (excerpt.stop - excerpt.start) (charsFrom excerpt.start text)

end ProcessContracts
