import FreeToken.Utils.Text

/-!
# JSON values

The values that `json.loads` gives, and `json.dumps` with `ensure_ascii=False`.  The parsers of the
library are the methods of `JsonLib`.
-/

namespace FreeToken

/-- A value of `json`.  Of a float the text that `json.dumps` writes is kept. -/
inductive JsonValue where
  | null
  | bool (b : Bool)
  | int (n : ℤ)
  | float (repr : Text)
  | str (s : Text)
  | arr (items : List JsonValue)
  | obj (items : List (Text × JsonValue))

/-- A dictionary of JSON values, in the order of its keys. -/
abbrev JsonDict := List (Text × JsonValue)

namespace JsonDict

def get (d : JsonDict) (key : Text) : Option JsonValue := d.lookup key

/-- `d[key] = value`. -/
def set (d : JsonDict) (key : Text) (value : JsonValue) : JsonDict :=
  if (d.lookup key).isSome then d.map fun kv => if kv.1 = key then (key, value) else kv
  else d ++ [(key, value)]

end JsonDict

namespace JsonValue

/-- A value as `bool(v)`. -/
def truthy : JsonValue → Bool
  | null => false
  | bool b => b
  | int n => n ≠ 0
  | float repr => repr ≠ "0.0".toList ∧ repr ≠ "-0.0".toList
  | str s => s ≠ []
  | arr items => ¬items.isEmpty
  | obj items => ¬items.isEmpty

/-- A digit of `format(n, "x")`. -/
def hexDigit (n : ℕ) : Char := if n < 10 then Char.ofNat (48 + n) else Char.ofNat (87 + n)

/-- The escape of a character in a string. -/
def escapeChar (c : Char) : Text :=
  if c = '"' then ['\\', '"']
  else if c = '\\' then ['\\', '\\']
  else if c = '\n' then ['\\', 'n']
  else if c = '\r' then ['\\', 'r']
  else if c = '\t' then ['\\', 't']
  else if c.toNat = 0x0C then ['\\', 'f']
  else if c.toNat = 0x08 then ['\\', 'b']
  else if c.toNat < 0x20 then ['\\', 'u', '0', '0', hexDigit (c.toNat / 16),
    hexDigit (c.toNat % 16)]
  else [c]

/-- `json.dumps(text, ensure_ascii=False)[1:-1]`. -/
def escape (text : Text) : Text := text.flatMap escapeChar

/-- `json.dumps` of a string. -/
def dumpsStr (text : Text) : Text := ['"'] ++ escape text ++ ['"']

mutual

/-- `json.dumps(v, ensure_ascii=False)`. -/
def dumps : JsonValue → Text
  | null => "null".toList
  | bool b => if b then "true".toList else "false".toList
  | int n => (toString n).toList
  | float repr => repr
  | str s => dumpsStr s
  | arr items => ['['] ++ dumpsItems items ++ [']']
  | obj items => ['\x7b'] ++ dumpsFields items ++ ['\x7d']

def dumpsItems : List JsonValue → Text
  | [] => []
  | [v] => dumps v
  | v :: items => dumps v ++ ", ".toList ++ dumpsItems items

def dumpsFields : List (Text × JsonValue) → Text
  | [] => []
  | [(k, v)] => dumpsStr k ++ ": ".toList ++ dumps v
  | (k, v) :: items => dumpsStr k ++ ": ".toList ++ dumps v ++ ", ".toList ++ dumpsFields items

end

end JsonValue

/-- How `partial_json_parser.loads` fails: by the text of its message first, then by its type. -/
inductive PartialJsonError where
  | extraData
  | malformedJSON
  | other
deriving DecidableEq, Repr

/-- The parsers of Python and of its libraries. -/
class JsonLib where
  /-- `json.loads`. -/
  loads : Text → Option JsonValue
  /-- `JSONDecoder().raw_decode`: the value that starts at a place, and where it ends. -/
  rawDecode : Text → ℕ → Option (JsonValue × ℕ)
  /-- Whether `orjson.loads` accepts a text. -/
  orjsonLoads : Text → Bool
  /-- `partial_json_parser.loads`, and whether a string may be cut. -/
  partialLoads : Text → Bool → Except PartialJsonError JsonValue
  /-- `int(value)`. -/
  parseInt : Text → Option ℤ
  /-- `float(value)`, as an integer where it is one.  The inner `none` is an `OverflowError`. -/
  parseFloat : Text → Option (Option JsonValue)
  /-- `ast.literal_eval`.  The inner `none` is a value that `json.dumps` refuses. -/
  literalEval : Text → Option (Option JsonValue)

@[reducible]
def JsonLib.refusing : JsonLib where
  loads _ := none
  rawDecode _ _ := none
  orjsonLoads _ := false
  partialLoads _ _ := .error .malformedJSON
  parseInt _ := none
  parseFloat _ := none
  literalEval _ := none

end FreeToken
