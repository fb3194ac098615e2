/-
**JSON texts.**

The values that commands write as JSON, and their two written forms: on one line, and with every
item on a line of its own.

Main definitions:

* `VariadicMacros.JsonValue`;
* `VariadicMacros.JsonValue.quoted` — a string in quotes;
* `VariadicMacros.JsonValue.compact`, `VariadicMacros.JsonValue.pretty` — the two forms.

Main results:

* `VariadicMacros.JsonValue.escape_eq_self` — characters that need no escape stand for themselves.
-/

set_option autoImplicit false

namespace VariadicMacros

/-- A JSON value; numbers are naturals. -/
inductive JsonValue
  | null
  | number (n : Nat)
  | text (s : String)
  | list (items : List JsonValue)
  | object (fields : List (String × JsonValue))

namespace JsonValue

/-! ### Strings -/

/-- A digit of a number below sixteen. -/
def hexDigit (n : Nat) : Char := "0123456789abcdef".toList.getD n '0'

/-- A character inside a string. -/
def escape (c : Char) : List Char :=
  if c = '"' then ['\\', '"']
  else if c = '\\' then ['\\', '\\']
  else if c = '\n' then ['\\', 'n']
  else if c = '\r' then ['\\', 'r']
  else if c = '\t' then ['\\', 't']
  else if c = '\x08' then ['\\', 'b']
  else if c = '\x0c' then ['\\', 'f']
  else if c.toNat < 0x20 then
    ['\\', 'u', '0', '0', hexDigit (c.toNat / 16), hexDigit (c.toNat % 16)]
  else [c]

/-- A string in quotes. -/
def quoted (s : String) : String := "\"" ++ String.ofList (s.toList.flatMap escape) ++ "\""

/-- A character that is neither a control character, a quote nor a backslash needs no escape. -/
theorem escape_eq_self {c : Char} (hc : 0x20 ≤ c.toNat) (hq : c ≠ '"') (hb : c ≠ '\\') :
    escape c = [c] := by
  unfold escape
  have h₁ : c ≠ '\n' := by rintro rfl; revert hc; decide
  have h₂ : c ≠ '\r' := by rintro rfl; revert hc; decide
  have h₃ : c ≠ '\t' := by rintro rfl; revert hc; decide
  have h₄ : c ≠ '\x08' := by rintro rfl; revert hc; decide
  have h₅ : c ≠ '\x0c' := by rintro rfl; revert hc; decide
  have h₆ : ¬ c.toNat < 0x20 := by omega
  simp only [hq, hb, h₁, h₂, h₃, h₄, h₅, h₆, if_false]

/-! ### One line -/

mutual

/-- A value on one line. -/
def compact : JsonValue → String
  | .null => "null"
  | .number n => toString n
  | .text s => quoted s
  | .list items => "[" ++ String.intercalate "," (compactItems items) ++ "]"
  | .object fields => "\x7b" ++ String.intercalate "," (compactFields fields) ++ "\x7d"

/-- The items of a list, each on one line. -/
def compactItems : List JsonValue → List String
  | [] => []
  | item :: rest => compact item :: compactItems rest

/-- The fields of an object, each on one line. -/
def compactFields : List (String × JsonValue) → List String
  | [] => []
  | (key, value) :: rest => (quoted key ++ ":" ++ compact value) :: compactFields rest

end

/-! ### Many lines -/

/-- Items between brackets, each on a line of its own two columns to the right. -/
def enclosed (opening closing : String) (indent : Nat) (items : List String) : String :=
  if items.isEmpty then opening ++ closing
  else
    let margin (n : Nat) := "\n" ++ String.ofList (List.replicate n ' ')
    opening ++ margin (indent + 2) ++ String.intercalate ("," ++ margin (indent + 2)) items ++
      margin indent ++ closing

mutual

/-- A value whose first line starts at the column `indent`. -/
def prettyFrom (indent : Nat) : JsonValue → String
  | .null => "null"
  | .number n => toString n
  | .text s => quoted s
  | .list items => enclosed "[" "]" indent (prettyItems (indent + 2) items)
  | .object fields => enclosed "\x7b" "\x7d" indent (prettyFields (indent + 2) fields)

/-- The items of a list. -/
def prettyItems (indent : Nat) : List JsonValue → List String
  | [] => []
  | item :: rest => prettyFrom indent item :: prettyItems indent rest

/-- The fields of an object. -/
def prettyFields (indent : Nat) : List (String × JsonValue) → List String
  | [] => []
  | (key, value) :: rest =>
    (quoted key ++ ": " ++ prettyFrom indent value) :: prettyFields indent rest

end

/-- A value with every item on a line of its own. -/
def pretty (j : JsonValue) : String := prettyFrom 0 j

end JsonValue

end VariadicMacros
