import RigLowering.Json.Value

namespace RigLowering.Json

def hexChar (digit : Nat) : Char :=
  Char.ofNat (if digit < 10 then 48 + digit else 87 + digit)

def quotedChar (c : Char) : List Char :=
  if c = '"' then ['\\', '"']
  else if c = '\\' then ['\\', '\\']
  else if c = '\n' then ['\\', 'n']
  else if c = '\r' then ['\\', 'r']
  else if c = '\t' then ['\\', 't']
  else if c = '\x08' then ['\\', 'b']
  else if c = '\x0c' then ['\\', 'f']
  else if c.toNat < 0x20 then
    ['\\', 'u', '0', '0', hexChar (c.toNat / 16), hexChar (c.toNat % 16)]
  else [c]

def quoted (text : String) : String :=
  "\"" ++ String.ofList (text.toList.flatMap quotedChar) ++ "\""

mutual

def compact : Json → String
  | .null => "null"
  | .bool value => if value then "true" else "false"
  | .natural value => Nat.repr value
  | .numeral spelling => spelling
  | .text value => quoted value
  | .array elements => "[" ++ ",".intercalate (compactElements elements) ++ "]"
  | .object members => "\x7b" ++ ",".intercalate (compactMembers members) ++ "\x7d"
  | .unreadable => "null"

def compactElements : List Json → List String
  | [] => []
  | element :: rest => compact element :: compactElements rest

def compactMembers : List (String × Json) → List String
  | [] => []
  | (key, value) :: rest => (quoted key ++ ":" ++ compact value) :: compactMembers rest

end

/-! One element or member a line, each level two blanks further in.  Empty containers close on
the line that opens them. -/

def newline (depth : Nat) : String :=
  "\n" ++ "".pushn ' ' (2 * depth)

mutual

def indented (depth : Nat) : Json → String
  | .array (element :: rest) =>
      "[" ++ newline (depth + 1) ++
        ("," ++ newline (depth + 1)).intercalate (indentedElements (depth + 1) (element :: rest)) ++
        newline depth ++ "]"
  | .object (member :: rest) =>
      "\x7b" ++ newline (depth + 1) ++
        ("," ++ newline (depth + 1)).intercalate (indentedMembers (depth + 1) (member :: rest)) ++
        newline depth ++ "\x7d"
  | json => compact json

def indentedElements (depth : Nat) : List Json → List String
  | [] => []
  | element :: rest => indented depth element :: indentedElements depth rest

def indentedMembers (depth : Nat) : List (String × Json) → List String
  | [] => []
  | (key, value) :: rest =>
      (quoted key ++ ": " ++ indented depth value) :: indentedMembers depth rest

end

end RigLowering.Json
