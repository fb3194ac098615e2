/-
**Characters of macro source text.**

The character classes that the lexical grammar of preprocessing tokens is built on: blanks, the
characters of identifiers, and the characters of numbers.

Main definitions:

* `VariadicMacros.Text.isBlank` — the characters that separate tokens;
* `VariadicMacros.Text.isNameStart`, `VariadicMacros.Text.isNameChar` — the first and the further
  characters of an identifier;
* `VariadicMacros.Text.isNumberChar` — the further characters of a number, which depend on the
  character before them;
* `VariadicMacros.Text.isIdentifier` — a whole text is one identifier.
-/

set_option autoImplicit false

namespace VariadicMacros.Text

/-! ### Blanks -/

/-- The characters with the Unicode property `White_Space`. -/
def isBlank (c : Char) : Bool :=
  let n := c.toNat
  (9 ≤ n && n ≤ 13) || n == 0x20 || n == 0x85 || n == 0xA0 || n == 0x1680 ||
    (0x2000 ≤ n && n ≤ 0x200A) || n == 0x2028 || n == 0x2029 || n == 0x202F || n == 0x205F ||
    n == 0x3000

/-- What remains of a text after its leading blanks. -/
def trimStart (cs : List Char) : List Char := cs.dropWhile isBlank

/-! ### Identifiers and numbers -/

/-- A letter or an underscore; only ASCII letters count. -/
def isNameStart (c : Char) : Bool := c == '_' || c.isAlpha

/-- A letter, a digit or an underscore; only ASCII letters and digits count. -/
def isNameChar (c : Char) : Bool := c == '_' || c.isAlphanum

/-- Whether `c` continues a number after `previous`: letters, digits, `_` and `.` always do, and
a sign does right after the letter of an exponent. -/
def isNumberChar (previous c : Char) : Bool :=
  c.isAlphanum || c == '_' || c == '.' ||
    ((c == '+' || c == '-') &&
      (previous == 'e' || previous == 'E' || previous == 'p' || previous == 'P'))

/-- A nonempty text of identifier characters that does not start with a digit. -/
def isIdentifier : List Char → Bool
  | [] => false
  | c :: cs => isNameStart c && cs.all isNameChar

theorem isNameChar_of_isNameStart {c : Char} (h : isNameStart c = true) : isNameChar c = true := by
  simp only [isNameStart, isNameChar, Bool.or_eq_true, Char.isAlphanum] at h ⊢
  rcases h with h | h
  · exact .inl h
  · exact .inr (.inl h)

/-- An identifier consists of identifier characters only. -/
theorem all_isNameChar_of_isIdentifier {cs : List Char} (h : isIdentifier cs = true) :
    cs.all isNameChar = true := by
  cases cs with
  | nil => rfl
  | cons c cs =>
      simp only [isIdentifier, Bool.and_eq_true] at h
      simp only [List.all_cons, Bool.and_eq_true]
      exact ⟨isNameChar_of_isNameStart h.1, h.2⟩

end VariadicMacros.Text
