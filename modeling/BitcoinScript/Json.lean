/-
JSON values, as far as the report of a run needs them, and their indented text: two spaces a level, one member a line,
and empty arrays and objects without a break inside. The members of an object are written in the order they are given.
-/

namespace BitcoinScript

/-- a JSON value -/
inductive Json where
  | bool (b : Bool)
  | number (n : Nat)
  | string (s : String)
  | array (items : List Json)
  | object (members : List (String × Json))

namespace Json

/-- the digits of a control character after its escape -/
def controlDigits (c : Char) : String :=
  let digit (n : Nat) : Char := if n < 10 then Char.ofNat (48 + n) else Char.ofNat (87 + n)
  String.ofList ['0', '0', digit (c.toNat / 16), digit (c.toNat % 16)]

/-- a character inside quotes -/
def escape (c : Char) : String :=
  if c = '"' then "\\\""
  else if c = '\\' then "\\\\"
  else if c = '\n' then "\\n"
  else if c = '\r' then "\\r"
  else if c = '\t' then "\\t"
  else if c.toNat = 0x08 then "\\b"
  else if c.toNat = 0x0c then "\\f"
  else if c.toNat < 0x20 then "\\u" ++ controlDigits c
  else c.toString

/-- a string in quotes -/
def quote (s : String) : String :=
  "\"" ++ String.join (s.toList.map escape) ++ "\""

/-- the start of a line at a level of indentation -/
def margin (level : Nat) : String :=
  String.ofList (List.replicate (2 * level) ' ')

mutual

/-- the indented text of a value, in pieces -/
def pieces (level : Nat) : Json → List String
  | .bool true => ["true"]
  | .bool false => ["false"]
  | .number n => [toString n]
  | .string s => [quote s]
  | .array [] => ["[]"]
  | .array (x :: xs) => "[\n" :: itemPieces (level + 1) (x :: xs) ++ [margin level, "]"]
  | .object [] => ["\x7b\x7d"]
  | .object (m :: ms) => "\x7b\n" :: memberPieces (level + 1) (m :: ms) ++ [margin level, "\x7d"]

/-- the lines of the items of an array -/
def itemPieces (level : Nat) : List Json → List String
  | [] => []
  | [x] => margin level :: pieces level x ++ ["\n"]
  | x :: y :: xs => margin level :: pieces level x ++ ",\n" :: itemPieces level (y :: xs)

/-- the lines of the members of an object -/
def memberPieces (level : Nat) : List (String × Json) → List String
  | [] => []
  | [(key, x)] => margin level :: quote key :: ": " :: pieces level x ++ ["\n"]
  | (key, x) :: m :: ms => margin level :: quote key :: ": " :: pieces level x ++ ",\n" :: memberPieces level (m :: ms)

end

/-- the indented text of a value -/
def pretty (value : Json) : String :=
  String.join (value.pieces 0)

end Json

end BitcoinScript
