/-
**Preprocessing tokens and their spelling.**

A token is a kind, a spelling, and the mark whether blanks stood before it.  Lists of tokens are
printed with `VariadicMacros.Token.spell`, which writes one space where blanks stood between two
tokens and nothing before the first.

Main definitions:

* `VariadicMacros.Kind`, `VariadicMacros.Token`;
* `VariadicMacros.Token.respace` — gives the first token of a list its space mark;
* `VariadicMacros.Token.spell` — the text of a token list.
-/

set_option autoImplicit false

namespace VariadicMacros

/-- The kinds of preprocessing tokens. -/
inductive Kind
  | identifier
  | number
  /-- A string or a character literal, quotes included. -/
  | literal
  | punctuator
  deriving DecidableEq, Repr

/-- A preprocessing token. -/
structure Token where
  kind : Kind
  text : String
  /-- Blanks stood before the token. -/
  spaced : Bool
  deriving DecidableEq, Repr

namespace Token

/-! ### Single tokens -/

/-- An identifier with no space before it. -/
def name (text : String) : Token := ⟨.identifier, text, false⟩

/-- A number with no space before it. -/
def number (text : String) : Token := ⟨.number, text, false⟩

/-- A punctuator with no space before it. -/
def mark (text : String) : Token := ⟨.punctuator, text, false⟩

/-- The same token after a space. -/
def afterSpace (t : Token) : Token := { t with spaced := true }

/-- Whether a token is the punctuator spelled `text`. -/
def isMark (t : Token) (text : String) : Bool := t.kind == .punctuator && t.text == text

theorem isMark_iff {t : Token} {text : String} :
    t.isMark text = true ↔ t.kind = .punctuator ∧ t.text = text := by
  simp [isMark]

/-- A punctuator has one spelling. -/
theorem isMark_of_ne {t : Token} {text other : String} (h : t.isMark text = true)
    (hne : text ≠ other) : t.isMark other = false := by
  have htext : t.text = text := (isMark_iff.1 h).2
  simp [isMark, htext, hne]

/-- An identifier is no punctuator. -/
theorem isMark_of_identifier {t : Token} (h : t.kind = .identifier) (text : String) :
    t.isMark text = false := by
  simp [isMark, h]

/-! ### Token lists -/

/-- Sets the space mark of the first token of a list. -/
def respace (spaced : Bool) : List Token → List Token
  | [] => []
  | t :: ts => { t with spaced := spaced } :: ts

@[simp] theorem respace_nil (b : Bool) : respace b [] = [] := rfl

@[simp] theorem respace_cons (b : Bool) (t : Token) (ts : List Token) :
    respace b (t :: ts) = { t with spaced := b } :: ts := rfl

@[simp] theorem length_respace (b : Bool) (ts : List Token) :
    (respace b ts).length = ts.length := by cases ts <;> rfl

/-- Appends the tokens of a list to a text, each after one space where its mark asks for it. -/
def spellOnto (out : String) (ts : List Token) : String :=
  ts.foldl (fun out t => if t.spaced then out ++ " " ++ t.text else out ++ t.text) out

/-- The text of a token list; the mark of the first token is not looked at. -/
def spell : List Token → String
  | [] => ""
  | t :: ts => spellOnto t.text ts

@[simp] theorem spell_nil : spell [] = "" := rfl

@[simp] theorem spellOnto_nil (out : String) : spellOnto out [] = out := rfl

theorem spellOnto_cons (out : String) (t : Token) (ts : List Token) :
    spellOnto out (t :: ts) =
      spellOnto (if t.spaced then out ++ " " ++ t.text else out ++ t.text) ts := rfl

theorem spellOnto_append (out : String) (ts us : List Token) :
    spellOnto out (ts ++ us) = spellOnto (spellOnto out ts) us := by
  simp [spellOnto, List.foldl_append]

theorem spell_cons (t : Token) (ts : List Token) : spell (t :: ts) = spellOnto t.text ts := rfl

/-- The spelling does not depend on the mark of the first token. -/
@[simp] theorem spell_respace (b : Bool) (ts : List Token) : spell (respace b ts) = spell ts := by
  cases ts <;> rfl

end Token

end VariadicMacros
