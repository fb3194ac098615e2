/-
**Flat TOML documents.**

Configuration files are TOML documents in which every key stands alone and every value is an
integer or a string.  Documents with tables, dotted keys or other kinds of values are refused, as
are keys that occur twice.

Main definitions:

* `VariadicMacros.Toml.Value`;
* `VariadicMacros.Toml.readInteger?` — signed decimal, and unsigned hexadecimal, octal and binary
  numerals, with underscores between digits;
* `VariadicMacros.Toml.readString?` — the four kinds of strings;
* `VariadicMacros.Toml.document?` — the keys of a document with their values.
-/

set_option autoImplicit false

namespace VariadicMacros.Toml

/-- A value of a key. -/
inductive Value
  | integer (n : Int)
  | text (s : String)
  deriving DecidableEq, Repr

/-! ### Characters -/

/-- A space or a tab. -/
def isSpace (c : Char) : Bool := c == ' ' || c == '\t'

/-- A character that may stand in comments and strings: anything but control characters, of which
only the tab is allowed. -/
def isPrintable (c : Char) : Bool := c == '\t' || (0x20 ≤ c.toNat && c.toNat != 0x7f)

/-- A character of a key without quotes. -/
def isKeyChar (c : Char) : Bool := c.isAlphanum || c == '_' || c == '-'

/-- What follows the spaces at the start of a text. -/
def skipSpaces (cs : List Char) : List Char := cs.dropWhile isSpace

/-- What follows a line end at the start of a text, if there is one. -/
def lineEnd? : List Char → Option (List Char)
  | '\n' :: cs => some cs
  | '\r' :: '\n' :: cs => some cs
  | _ => none

/-! ### Integers -/

/-- The value of a digit, letters counting from ten on. -/
def digitValue? (c : Char) : Option Nat :=
  if c.isDigit then some (c.toNat - '0'.toNat)
  else if 'a' ≤ c ∧ c ≤ 'f' then some (c.toNat - 'a'.toNat + 10)
  else if 'A' ≤ c ∧ c ≤ 'F' then some (c.toNat - 'A'.toNat + 10)
  else none

/-- Reads digits of a base, the number so far being `n`.  An underscore has to stand between two
digits; `afterDigit` says whether a digit stands before. -/
def readDigits? (base n : Nat) (afterDigit : Bool) : List Char → Option Nat
  | [] => if afterDigit then some n else none
  | c :: cs =>
    if c = '_' then if afterDigit then readDigits? base n false cs else none
    else
      match digitValue? c with
      | none => none
      | some v => if v < base then readDigits? base (n * base + v) true cs else none

/-- Reads an unsigned decimal numeral, which has no zero before other digits. -/
def readDecimal? (cs : List Char) : Option Nat :=
  match cs with
  | '0' :: _ :: _ => none
  | cs => readDigits? 10 0 false cs

/-- Reads an integer of 64 bits. -/
def readInteger? (cs : List Char) : Option Int :=
  let value : Option Int :=
    match cs with
    | '0' :: 'x' :: cs => (readDigits? 16 0 false cs).map Int.ofNat
    | '0' :: 'o' :: cs => (readDigits? 8 0 false cs).map Int.ofNat
    | '0' :: 'b' :: cs => (readDigits? 2 0 false cs).map Int.ofNat
    | '+' :: cs => (readDecimal? cs).map Int.ofNat
    | '-' :: cs => (readDecimal? cs).map fun n => -Int.ofNat n
    | cs => (readDecimal? cs).map Int.ofNat
  value.filter fun n => -0x8000000000000000 ≤ n && n < 0x8000000000000000

/-! ### Strings -/

/-- The character of a code point written with hexadecimal digits. -/
def codePoint? (digits : List Char) : Option Char :=
  match digits.mapM digitValue? with
  | none => none
  | some values =>
    let n := values.foldl (fun n v => n * 16 + v) 0
    if n < 0xd800 ∨ 0xdfff < n ∧ n < 0x110000 then some (Char.ofNat n) else none

/-- The character of an escape with one letter. -/
def escaped? (c : Char) : Option Char :=
  match c with
  | 'b' => some '\x08'
  | 't' => some '\t'
  | 'n' => some '\n'
  | 'f' => some '\x0c'
  | 'r' => some '\r'
  | '"' => some '"'
  | '\\' => some '\\'
  | _ => none

/-- What follows the spaces and line ends at the start of a text. -/
def skipBlank : List Char → List Char
  | '\r' :: '\n' :: cs => skipBlank cs
  | c :: cs => if isSpace c || c == '\n' then skipBlank cs else c :: cs
  | [] => []

/-- How a string is written. -/
structure Style where
  quote : Char
  /-- Three quotes open and close the string, which may have several lines. -/
  long : Bool
  deriving DecidableEq, Repr

/-- Backslashes escape characters in strings with double quotes. -/
def Style.escapes (s : Style) : Bool := s.quote == '"'

/-- The number of quotes at the start of a text. -/
def countQuotes (quote : Char) (cs : List Char) : Nat := (cs.takeWhile (· == quote)).length

/-- Reads on inside a string; `taken` holds its characters so far, the last one first.  The supply
has to exceed the length of the text. -/
def readOn? (style : Style) (supply : Nat) (taken cs : List Char) :
    Option (List Char × List Char) :=
  match supply with
  | 0 => none
  | supply + 1 =>
    match cs with
    | [] => none
    | c :: rest =>
      if c = style.quote then
        if style.long then
          let quotes := countQuotes style.quote cs
          if quotes < 3 then readOn? style supply (c :: taken) rest
          else if quotes ≤ 5 then
            some ((List.replicate (quotes - 3) c ++ taken).reverse, cs.drop quotes)
          else none
        else some (taken.reverse, rest)
      else if c = '\\' ∧ style.escapes = true then
        match rest with
        | 'u' :: a :: b :: c :: d :: rest =>
          match codePoint? [a, b, c, d] with
          | some c => readOn? style supply (c :: taken) rest
          | none => none
        | 'U' :: a :: b :: c :: d :: e :: f :: g :: h :: rest =>
          match codePoint? [a, b, c, d, e, f, g, h] with
          | some c => readOn? style supply (c :: taken) rest
          | none => none
        | e :: after =>
          match escaped? e with
          | some c => readOn? style supply (c :: taken) after
          | none =>
            if style.long then
              match lineEnd? (skipSpaces rest) with
              | some after => readOn? style supply taken (skipBlank after)
              | none => none
            else none
        | [] => none
      else
        match lineEnd? cs with
        | some after => if style.long then readOn? style supply ('\n' :: taken) after else none
        | none => if isPrintable c then readOn? style supply (c :: taken) rest else none

/-- Reads a string at the start of a text; `long` says whether strings of several lines are
allowed. -/
def readString? (long : Bool) (cs : List Char) : Option (List Char × List Char) :=
  match cs with
  | q :: rest =>
    if q = '"' ∨ q = '\'' then
      if 3 ≤ countQuotes q cs ∧ long = true then
        let body := cs.drop 3
        readOn? ⟨q, true⟩ (cs.length + 1) [] ((lineEnd? body).getD body)
      else readOn? ⟨q, false⟩ (cs.length + 1) [] rest
    else none
  | [] => none

/-! ### Documents -/

/-- Reads a key at the start of a text. -/
def readKey? (cs : List Char) : Option (List Char × List Char) :=
  match cs.takeWhile isKeyChar with
  | [] => readString? false cs
  | key => some (key, cs.dropWhile isKeyChar)

/-- Whether a character may belong to a value without quotes. -/
def isBare (c : Char) : Bool := !(isSpace c || c == '\n' || c == '\r' || c == '#')

/-- Reads a value at the start of a text. -/
def readValue? (cs : List Char) : Option (Value × List Char) :=
  match cs.head? with
  | some '"' => (readString? true cs).map fun (s, rest) => (.text (String.ofList s), rest)
  | some '\'' => (readString? true cs).map fun (s, rest) => (.text (String.ofList s), rest)
  | _ => (readInteger? (cs.takeWhile isBare)).map fun n => (.integer n, cs.dropWhile isBare)

/-- What follows the end of a line that may have a comment, or the end of the text. -/
def finishLine? (cs : List Char) : Option (List Char) :=
  let rest :=
    match skipSpaces cs with
    | '#' :: comment => comment.dropWhile isPrintable
    | cs => cs
  match rest with
  | [] => some []
  | rest => lineEnd? rest

/-- Reads lines; `done` holds the keys so far, the last one first.  The supply has to exceed the
length of the text. -/
def readLines? (supply : Nat) (done : List (String × Value)) (cs : List Char) :
    Option (List (String × Value)) :=
  match supply with
  | 0 => none
  | supply + 1 =>
    match skipSpaces cs with
    | [] => some done.reverse
    | c :: rest =>
      if c = '#' ∨ c = '\n' ∨ c = '\r' then
        match finishLine? (c :: rest) with
        | some after => readLines? supply done after
        | none => none
      else
        match readKey? (c :: rest) with
        | none => none
        | some (key, afterKey) =>
          match skipSpaces afterKey with
          | '=' :: afterEquals =>
            match readValue? (skipSpaces afterEquals) with
            | none => none
            | some (value, afterValue) =>
              match finishLine? afterValue with
              | none => none
              | some after =>
                let key := String.ofList key
                if (done.lookup key).isSome then none
                else readLines? supply ((key, value) :: done) after
          | _ => none

/-- The keys and values of a document, after a byte order mark if there is one. -/
def document? (text : String) : Option (List (String × Value)) :=
  let cs := text.toList
  let cs := match cs with
    | '\ufeff' :: cs => cs
    | cs => cs
  readLines? (cs.length + 1) [] cs

end VariadicMacros.Toml
