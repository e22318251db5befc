/-!
# Texts

What scripts and their names are compared by. A name is kept in the form that `fold` gives it,
which ignores the case of the letters `A` to `Z` and of no others. White space is the Unicode
property `White_Space`: 25 characters, given as ranges.

A fingerprint is a 64-bit word made from a text: the same text always has the same one, and two
different texts hardly ever do. It is the SipHash of the text's UTF-8 bytes and a closing byte that
no text contains, with an all-zero key, one round for every word of eight bytes and three rounds at
the end.
-/

namespace PointScope.Text

/-! ### Letters and white space -/

/-- A text with the letters `A` to `Z` made small and everything else kept. -/
def fold (s : String) : String := s.map Char.toLower

/-- First and last character of each run of white space. -/
def whiteSpaceRanges : List (Nat × Nat) :=
  [(0x9, 0xD), (0x20, 0x20), (0x85, 0x85), (0xA0, 0xA0), (0x1680, 0x1680), (0x2000, 0x200A),
    (0x2028, 0x2029), (0x202F, 0x202F), (0x205F, 0x205F), (0x3000, 0x3000)]

/-- Whether a character is white space. -/
def isWhiteSpace (c : Char) : Bool :=
  whiteSpaceRanges.any fun (first, last) => first ≤ c.toNat && c.toNat ≤ last

/-! ### Fingerprints -/

/-- The four words that are mixed. -/
structure Mixer where
  a : UInt64
  b : UInt64
  c : UInt64
  d : UInt64

namespace Mixer

/-- The state before anything is taken in: the constant words, with a key of zeros. -/
def start : Mixer :=
  ⟨0x736f6d6570736575, 0x646f72616e646f6d, 0x6c7967656e657261, 0x7465646279746573⟩

/-- The word rotated left by `n` bits, for `0 < n < 64`. -/
def rotateLeft (x n : UInt64) : UInt64 := x <<< n ||| x >>> (64 - n)

/-- Mixes the four words. -/
def round (m : Mixer) : Mixer :=
  let a := m.a + m.b
  let b := rotateLeft m.b 13 ^^^ a
  let c := m.c + m.d
  let d := rotateLeft m.d 16 ^^^ c
  let a := rotateLeft a 32 + d
  let d := rotateLeft d 21 ^^^ a
  let c := c + b
  let b := rotateLeft b 17 ^^^ c
  ⟨a, b, rotateLeft c 32, d⟩

/-- Takes in a word. -/
def absorb (m : Mixer) (w : UInt64) : Mixer :=
  let m := { m with d := m.d ^^^ w }.round
  { m with a := m.a ^^^ w }

/-- The word that is left when everything has been taken in. -/
def finish (m : Mixer) : UInt64 :=
  let m := { m with c := m.c ^^^ 0xff }.round.round.round
  m.a ^^^ m.b ^^^ m.c ^^^ m.d

end Mixer

/-- Up to eight bytes as a word, the lowest byte first. -/
def wordOfBytes (bytes : List UInt8) : UInt64 :=
  bytes.foldr (fun byte w => w <<< 8 ||| byte.toUInt64) 0

/-- Takes in bytes eight at a time. The last word holds the bytes that are left over, and in its
highest byte the number of all bytes, of which there are `size`. -/
def absorbBytes (m : Mixer) (size : Nat) : List UInt8 → Mixer
  | b₀ :: b₁ :: b₂ :: b₃ :: b₄ :: b₅ :: b₆ :: b₇ :: rest =>
    absorbBytes (m.absorb (wordOfBytes [b₀, b₁, b₂, b₃, b₄, b₅, b₆, b₇])) size rest
  | rest => m.absorb (wordOfBytes rest ||| UInt64.ofNat size <<< 56)

/-- The SipHash of some bytes. -/
def sipHash (bytes : List UInt8) : UInt64 :=
  (absorbBytes .start bytes.length bytes).finish

/-- The fingerprint of a text. -/
def fingerprint (s : String) : UInt64 := sipHash (s.toUTF8.data.toList ++ [0xff])

example : fingerprint "hello" = 0xe037876b880b8ed9 := by decide +kernel

end PointScope.Text
