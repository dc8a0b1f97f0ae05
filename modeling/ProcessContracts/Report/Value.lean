/-!
# JSON values

Values as a report writes them, with members in a fixed order, and their indented text.
-/

namespace ProcessContracts

inductive JsonValue where
  | null
  | bool (value : Bool)
  | nat (value : Nat)
  | text (value : String)
  | array (items : List JsonValue)
  | object (members : List (String × JsonValue))

namespace JsonValue

def ofOption {α : Type} (f : α → JsonValue) : Option α → JsonValue
  | none => .null
  | some value => f value

/-- Quotes, backslashes and control characters are escaped; all else stands for itself. -/
def escape (c : Char) : String :=
  if c = '"' then "\\\""
  else if c = '\\' then "\\\\"
  else if c = '\n' then "\\n"
  else if c = '\r' then "\\r"
  else if c = '\t' then "\\t"
  else if c = '\x08' then "\\b"
  else if c = '\x0c' then "\\f"
  else if c.toNat < 0x20 then
    "\\u00" ++ String.ofList [Nat.digitChar (c.toNat / 16), Nat.digitChar (c.toNat % 16)]
  else c.toString

def quote (s : String) : String :=
  "\"" ++ String.join (s.toList.map escape) ++ "\""

def indentation (depth : Nat) : String := String.ofList (List.replicate (2 * depth) ' ')

/-- One part a line between brackets; nothing between the brackets of nothing. -/
def lines (opening closing : String) (depth : Nat) (parts : List String) : String :=
  if parts.isEmpty then opening ++ closing
  else
    opening ++ "\n" ++
      String.intercalate ",\n" (parts.map (indentation (depth + 1) ++ ·)) ++
      "\n" ++ indentation depth ++ closing

mutual

/-- The text of a value that starts on a line indented by `depth`. -/
def prettyAt (depth : Nat) : JsonValue → String
  | .null => "null"
  | .bool true => "true"
  | .bool false => "false"
  | .nat value => toString value
  | .text value => quote value
  | .array items => lines "[" "]" depth (prettyAll (depth + 1) items)
  | .object members => lines "\x7b" "\x7d" depth (prettyMembers (depth + 1) members)

def prettyAll (depth : Nat) : List JsonValue → List String
  | [] => []
  | value :: values => prettyAt depth value :: prettyAll depth values

def prettyMembers (depth : Nat) : List (String × JsonValue) → List String
  | [] => []
  | (name, value) :: members =>
      (quote name ++ ": " ++ prettyAt depth value) :: prettyMembers depth members

end

def pretty (value : JsonValue) : String := prettyAt 0 value

end JsonValue

end ProcessContracts
