/-
**SHA-256.**

The message is padded to blocks of 64 bytes, every block is extended to a schedule of 64 words,
and 64 rounds mix the schedule into a chain of eight words.

Main definitions:

* `VariadicMacros.Sha256.Chain` — the eight words;
* `VariadicMacros.Sha256.schedule` — the words of a block;
* `VariadicMacros.Sha256.padded` — a message with its padding;
* `VariadicMacros.Sha256.hexDigest` — the digest in lower-case hexadecimal.

Main results:

* `VariadicMacros.Sha256.length_hexWord` — every word is written with eight digits.
-/

set_option autoImplicit false

namespace VariadicMacros.Sha256

/-! ### Words -/

/-- The eight words that are carried from block to block. -/
structure Chain where
  a : UInt32
  b : UInt32
  c : UInt32
  d : UInt32
  e : UInt32
  f : UInt32
  g : UInt32
  h : UInt32
  deriving DecidableEq, Repr

/-- The chain before the first block. -/
def initial : Chain :=
  ⟨0x6a09e667, 0xbb67ae85, 0x3c6ef372, 0xa54ff53a, 0x510e527f, 0x9b05688c, 0x1f83d9ab, 0x5be0cd19⟩

/-- The constants of the rounds. -/
def constants : Array UInt32 := #[
  0x428a2f98, 0x71374491, 0xb5c0fbcf, 0xe9b5dba5, 0x3956c25b, 0x59f111f1, 0x923f82a4, 0xab1c5ed5,
  0xd807aa98, 0x12835b01, 0x243185be, 0x550c7dc3, 0x72be5d74, 0x80deb1fe, 0x9bdc06a7, 0xc19bf174,
  0xe49b69c1, 0xefbe4786, 0x0fc19dc6, 0x240ca1cc, 0x2de92c6f, 0x4a7484aa, 0x5cb0a9dc, 0x76f988da,
  0x983e5152, 0xa831c66d, 0xb00327c8, 0xbf597fc7, 0xc6e00bf3, 0xd5a79147, 0x06ca6351, 0x14292967,
  0x27b70a85, 0x2e1b2138, 0x4d2c6dfc, 0x53380d13, 0x650a7354, 0x766a0abb, 0x81c2c92e, 0x92722c85,
  0xa2bfe8a1, 0xa81a664b, 0xc24b8b70, 0xc76c51a3, 0xd192e819, 0xd6990624, 0xf40e3585, 0x106aa070,
  0x19a4c116, 0x1e376c08, 0x2748774c, 0x34b0bcb5, 0x391c0cb3, 0x4ed8aa4a, 0x5b9cca4f, 0x682e6ff3,
  0x748f82ee, 0x78a5636f, 0x84c87814, 0x8cc70208, 0x90befffa, 0xa4506ceb, 0xbef9a3f7, 0xc67178f2]

/-- Rotates a word to the right. -/
def rotate (x amount : UInt32) : UInt32 := (x >>> amount) ||| (x <<< (32 - amount))

/-! ### The schedule of a block -/

/-- The byte at a position of a message, zero beyond its end. -/
def byteAt (message : ByteArray) (i : Nat) : UInt32 :=
  if h : i < message.size then message[i].toUInt32 else 0

/-- The four bytes from a position on, the first one highest. -/
def wordAt (message : ByteArray) (i : Nat) : UInt32 :=
  (byteAt message i <<< 24) ||| (byteAt message (i + 1) <<< 16) |||
    (byteAt message (i + 2) <<< 8) ||| byteAt message (i + 3)

/-- Reads `count` further words from position `i` on. -/
def readWords (message : ByteArray) (i : Nat) (words : Array UInt32) : Nat → Array UInt32
  | 0 => words
  | count + 1 => readWords message (i + 4) (words.push (wordAt message i)) count

/-- The word that extends a schedule. -/
def nextWord (words : Array UInt32) : UInt32 :=
  let n := words.size
  let x := words.getD (n - 15) 0
  let y := words.getD (n - 2) 0
  words.getD (n - 16) 0 + (rotate x 7 ^^^ rotate x 18 ^^^ (x >>> 3)) + words.getD (n - 7) 0 +
    (rotate y 17 ^^^ rotate y 19 ^^^ (y >>> 10))

/-- Adds `count` words to a schedule. -/
def extend (words : Array UInt32) : Nat → Array UInt32
  | 0 => words
  | count + 1 => extend (words.push (nextWord words)) count

/-- The 64 words of the block at a position. -/
def schedule (message : ByteArray) (start : Nat) : Array UInt32 :=
  extend (readWords message start (Array.mkEmpty 64) 16) 48

/-! ### Rounds -/

/-- One round. -/
def Chain.round (s : Chain) (constant word : UInt32) : Chain :=
  match s with
  | ⟨a, b, c, d, e, f, g, h⟩ =>
    let t₁ := h + (rotate e 6 ^^^ rotate e 11 ^^^ rotate e 25) + ((e &&& f) ^^^ (~~~e &&& g)) +
      constant + word
    let t₂ := (rotate a 2 ^^^ rotate a 13 ^^^ rotate a 22) +
      ((a &&& b) ^^^ (a &&& c) ^^^ (b &&& c))
    ⟨t₁ + t₂, a, b, c, d + t₁, e, f, g⟩

/-- The last `count` rounds of a block. -/
def rounds (words : Array UInt32) (s : Chain) : Nat → Chain
  | 0 => s
  | count + 1 =>
    rounds words (s.round (constants.getD (63 - count) 0) (words.getD (63 - count) 0)) count

/-- Adds two chains word by word. -/
def Chain.add (s t : Chain) : Chain :=
  ⟨s.a + t.a, s.b + t.b, s.c + t.c, s.d + t.d, s.e + t.e, s.f + t.f, s.g + t.g, s.h + t.h⟩

/-- Mixes `count` blocks from a position on into a chain. -/
def absorb (message : ByteArray) (start : Nat) (s : Chain) : Nat → Chain
  | 0 => s
  | count + 1 =>
    absorb message (start + 64) (s.add (rounds (schedule message start) s 64)) count

/-! ### Messages -/

/-- Appends `count` zero bytes. -/
def pushZeros (message : ByteArray) : Nat → ByteArray
  | 0 => message
  | count + 1 => pushZeros (message.push 0) count

/-- A message with a one bit, zeros, and its length in bits as eight bytes, which together fill
the last block. -/
def padded (message : ByteArray) : ByteArray :=
  let size := message.size
  let zeros := (119 - size % 64) % 64
  let bits := 8 * size
  [56, 48, 40, 32, 24, 16, 8, 0].foldl (fun m shift => m.push (bits >>> shift).toUInt8)
    (pushZeros (message.push 0x80) zeros)

/-- The chain after a whole message. -/
def digest (message : ByteArray) : Chain :=
  let message := padded message
  absorb message 0 initial (message.size / 64)

/-! ### Hexadecimal -/

/-- The digit of a number below sixteen. -/
def hexDigit (n : Nat) : Char := "0123456789abcdef".toList.getD n '0'

/-- The eight digits of a word. -/
def hexWord (w : UInt32) : List Char :=
  [28, 24, 20, 16, 12, 8, 4, 0].map fun shift => hexDigit ((w.toNat >>> shift) % 16)

/-- The words of a chain in order. -/
def Chain.words (s : Chain) : List UInt32 := [s.a, s.b, s.c, s.d, s.e, s.f, s.g, s.h]

/-- The digest of a message in hexadecimal. -/
def hexDigest (message : ByteArray) : String :=
  String.ofList ((digest message).words.flatMap hexWord)

@[simp] theorem length_hexWord (w : UInt32) : (hexWord w).length = 8 := by simp [hexWord]

@[simp] theorem length_hexDigest (message : ByteArray) : (hexDigest message).length = 64 := by
  simp [hexDigest, Chain.words]

end VariadicMacros.Sha256
