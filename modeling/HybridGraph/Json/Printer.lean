import HybridGraph.Json.Parser
/-!
# JSON text, written

`compact` writes no blanks, `pretty` indents by two.  A number that is not finite is written
`null`; in strings the quote, the backslash and the control characters are escaped, all else stands
for itself.
-/

namespace HybridGraph.Json

/-- A hexadecimal digit. -/
def hexDigit (n : Nat) : Char :=
  if n < 10 then Char.ofNat ('0'.toNat + n) else Char.ofNat ('a'.toNat + n - 10)

/-- One character inside quotes. -/
def escapeChar (c : Char) : List Char :=
  if c == '"' then ['\\', '"']
  else if c == '\\' then ['\\', '\\']
  else if c == '\n' then ['\\', 'n']
  else if c == '\t' then ['\\', 't']
  else if c == '\r' then ['\\', 'r']
  else if c.toNat == 8 then ['\\', 'b']
  else if c.toNat == 12 then ['\\', 'f']
  else if c.toNat < 32 then ['\\', 'u', '0', '0', hexDigit (c.toNat / 16), hexDigit (c.toNat % 16)]
  else [c]

/-- A string in quotes. -/
def quote (s : String) : String :=
  s.toList.foldl (fun out c => (escapeChar c).foldl String.push out) "\"" ++ "\""

/-- A number, a word or a string. -/
def scalarText : Json → String
  | .null => "null"
  | .bool true => "true"
  | .bool false => "false"
  | .int n => toString n
  | .double x => if x.isFinite then Number.FloatLayout.jsonDouble.double x else "null"
  | .single x => if x.isFinite then Number.FloatLayout.jsonSingle.single x else "null"
  | .string s => quote s
  | .array _ => "[]"
  | .object _ => "\x7b\x7d"

mutual

/-- Appends the compact text of a value to `out`. -/
def writeCompact (out : String) : Json → String
  | .array [] => out ++ "[]"
  | .array (item :: items) => writeCompactItems (writeCompact (out.push '[') item) items
  | .object [] => out ++ "\x7b\x7d"
  | .object ((key, value) :: fields) =>
    writeCompactFields (writeCompact (out.push '\x7b' ++ quote key ++ ":") value) fields
  | scalar => out ++ scalarText scalar

/-- Appends the further items of a list and its closing bracket. -/
def writeCompactItems (out : String) : List Json → String
  | [] => out.push ']'
  | item :: items => writeCompactItems (writeCompact (out.push ',') item) items

/-- Appends the further fields of an object and its closing brace. -/
def writeCompactFields (out : String) : List (String × Json) → String
  | [] => out.push '\x7d'
  | (key, value) :: fields =>
    writeCompactFields (writeCompact (out.push ',' ++ quote key ++ ":") value) fields

end

/-- The text of a value without blanks. -/
def compact (j : Json) : String := writeCompact "" j

/-- A line break and the indentation of a level. -/
def newline (level : Nat) : String := "\n".pushn ' ' (2 * level)

mutual

/-- Appends the indented text of a value that stands at `level`. -/
def writePretty (level : Nat) (out : String) : Json → String
  | .array [] => out ++ "[]"
  | .array (item :: items) =>
    writePrettyItems level (writePretty (level + 1) (out ++ "[" ++ newline (level + 1)) item) items
  | .object [] => out ++ "\x7b\x7d"
  | .object ((key, value) :: fields) =>
    writePrettyFields level
      (writePretty (level + 1) (out ++ "\x7b" ++ newline (level + 1) ++ quote key ++ ": ") value)
      fields
  | scalar => out ++ scalarText scalar

/-- Appends the further items of a list and its closing bracket. -/
def writePrettyItems (level : Nat) (out : String) : List Json → String
  | [] => (out ++ newline level).push ']'
  | item :: items =>
    writePrettyItems level (writePretty (level + 1) (out ++ "," ++ newline (level + 1)) item) items

/-- Appends the further fields of an object and its closing brace. -/
def writePrettyFields (level : Nat) (out : String) : List (String × Json) → String
  | [] => (out ++ newline level).push '\x7d'
  | (key, value) :: fields =>
    writePrettyFields level
      (writePretty (level + 1) (out ++ "," ++ newline (level + 1) ++ quote key ++ ": ") value)
      fields

end

/-- The text of a value, indented. -/
def pretty (j : Json) : String := writePretty 0 "" j

/-! ## Serializers -/

/-- Texts without blanks, read by `parse?`. -/
def Serializer.compact : Serializer := ⟨Json.compact, parse?⟩

theorem Serializer.write_compact (j : Json) : Serializer.compact.write j = j.compact := rfl

theorem Serializer.read_compact (text : String) : Serializer.compact.read text = parse? text := rfl

/-- Indented texts, read by `parse?`. -/
def Serializer.pretty : Serializer := ⟨Json.pretty, parse?⟩

end HybridGraph.Json
