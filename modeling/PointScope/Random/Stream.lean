import PointScope.Random.ChaCha

/-!
# The random stream behind `rand`

A stream is a seed and the number of draws taken from it so far; nothing else is kept. Draw
number `k` is a function of the seed and `k` alone (`Stream.drawAt`), so two streams with the
same seed and the same count give the same draws ever after.
-/

namespace PointScope.Random

/-- One step of the generator that spreads a 64-bit seed over the key words. -/
def spreadStep (s : UInt64) : UInt64 := s * 6364136223846793005 + 11634580027462260723

/-- The key word that a state of the spreading generator gives: its upper half folded over,
then rotated right by its top five bits. -/
def spreadWord (s : UInt64) : UInt32 :=
  let x := (((s >>> 18) ^^^ s) >>> 27).toUInt32
  let r := (s >>> 59).toUInt32
  x >>> r ||| x <<< ((32 - r) % 32)

/-- The state of the spreading generator after `n` steps. -/
def spreadState (seed : UInt64) : Nat → UInt64
  | 0 => seed
  | n + 1 => spreadStep (spreadState seed n)

/-- The key of a seed: one word after each of eight steps. -/
def keyOfSeed (seed : Nat) : ChaCha.Key :=
  Vector.ofFn fun i => spreadWord (spreadState (UInt64.ofNat seed) (i + 1))

/-- A seeded stream of draws. -/
structure Stream where
  /-- The key made from the seed. -/
  key : ChaCha.Key
  /-- How many draws have been taken. -/
  drawn : Nat
deriving DecidableEq

namespace Stream

/-- The stream of a seed, with nothing drawn yet. -/
def ofSeed (seed : Nat) : Stream := ⟨keyOfSeed seed, 0⟩

/-- Two 32-bit words, low word first, as a double in `[0, 1)`: the upper 53 of the 64 bits
are the binary places. -/
def unitInterval (low high : UInt32) : Float :=
  (((high.toUInt64 <<< 32) ||| low.toUInt64) >>> 11).toFloat * Float.ofBits 0x3CA0000000000000

/-- Draw number `k` of a key: words `2k` and `2k + 1` of the keystream. -/
def drawAt (key : ChaCha.Key) (k : Nat) : Float :=
  let words := ChaCha.block key (k / 8)
  let i : Fin 8 := Fin.ofNat 8 k
  unitInterval words[2 * i.val] words[2 * i.val + 1]

/-- The next draw, and the stream after it. -/
def draw (s : Stream) : Float × Stream :=
  (drawAt s.key s.drawn, { s with drawn := s.drawn + 1 })

end Stream

end PointScope.Random
