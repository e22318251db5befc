/-!
# The ChaCha keystream with eight rounds

`block key k` is the `k`-th block of sixteen 32-bit words that a 256-bit key produces. The
block is a pure function of the key and the block number: the start state is laid out from the
constant words, the key and the number, four double rounds mix it, and the start state is added
back.
-/

namespace PointScope.ChaCha

/-- Eight key words. -/
abbrev Key := Vector UInt32 8

/-- Sixteen words: a state in the middle of mixing, or a block of output. -/
abbrev Block := Vector UInt32 16

/-- The word rotated left by `n` bits, for `0 < n < 32`. -/
def rotateLeft (x n : UInt32) : UInt32 := x <<< n ||| x >>> (32 - n)

/-- Mixes the four words at the given places. -/
def quarterRound (s : Block) (a b c d : Fin 16) : Block :=
  let s := s.set a (s[a] + s[b])
  let s := s.set d (rotateLeft (s[d] ^^^ s[a]) 16)
  let s := s.set c (s[c] + s[d])
  let s := s.set b (rotateLeft (s[b] ^^^ s[c]) 12)
  let s := s.set a (s[a] + s[b])
  let s := s.set d (rotateLeft (s[d] ^^^ s[a]) 8)
  let s := s.set c (s[c] + s[d])
  s.set b (rotateLeft (s[b] ^^^ s[c]) 7)

/-- A round over the columns of the state and a round over its diagonals. -/
def doubleRound (s : Block) : Block :=
  let s := quarterRound s 0 4 8 12
  let s := quarterRound s 1 5 9 13
  let s := quarterRound s 2 6 10 14
  let s := quarterRound s 3 7 11 15
  let s := quarterRound s 0 5 10 15
  let s := quarterRound s 1 6 11 12
  let s := quarterRound s 2 7 8 13
  quarterRound s 3 4 9 14

/-- The state that block `k` starts from: the constant words, the key, and the block number in
two words, low word first. -/
def start (key : Key) (k : Nat) : Block :=
  #v[0x61707865, 0x3320646e, 0x79622d32, 0x6b206574,
    key[0], key[1], key[2], key[3], key[4], key[5], key[6], key[7],
    UInt32.ofNat k, UInt32.ofNat (k >>> 32), 0, 0]

/-- The `k`-th block of the keystream. -/
def block (key : Key) (k : Nat) : Block :=
  let s := start key k
  let mixed := doubleRound (doubleRound (doubleRound (doubleRound s)))
  Vector.zipWith (· + ·) mixed s

end PointScope.ChaCha
