import WordC.Tree

/-!
# Trees as JSON

A rule is written as an object with the rule's name as its only key and the children in an array; a
token is written as a string. Every level is indented by two spaces.
-/

namespace WordC.Tree

/-- A character of a JSON string. Only the quote, the backslash and the controls are escaped. -/
def jsonChar (c : Char) : String :=
  if c = '"' then "\\\""
  else if c = '\\' then "\\\\"
  else if c = '\n' then "\\n"
  else if c = '\r' then "\\r"
  else if c = '\t' then "\\t"
  else if c = '\x08' then "\\b"
  else if c = '\x0c' then "\\f"
  else if c.toNat < 0x20 then
    let digits := String.ofList (Nat.toDigits 16 c.toNat)
    "\\u" ++ String.ofList (List.replicate (4 - digits.length) '0') ++ digits
  else c.toString

def jsonString (text : String) : String :=
  "\"" ++ String.join (text.toList.map jsonChar) ++ "\""

/-- The start of a line at a nesting depth. -/
def jsonLine (depth : Nat) : String :=
  "\n" ++ String.ofList (List.replicate (2 * depth) ' ')

mutual

/-- The tree as JSON text; the lines behind the first one are indented by `depth` levels. -/
def json (depth : Nat) : Tree → String
  | terminal text => jsonString text
  | node rule children =>
      "\x7b" ++ jsonLine (depth + 1) ++ jsonString rule.name ++ ": " ++
        jsonArray (depth + 1) children ++ jsonLine depth ++ "\x7d"

def jsonArray (depth : Nat) : List Tree → String
  | [] => "[]"
  | tree :: rest =>
      "[" ++ jsonLine (depth + 1) ++ tree.json (depth + 1) ++ jsonRest depth rest ++
        jsonLine depth ++ "]"

def jsonRest (depth : Nat) : List Tree → String
  | [] => ""
  | tree :: rest =>
      "," ++ jsonLine (depth + 1) ++ tree.json (depth + 1) ++ jsonRest depth rest

end

end WordC.Tree
