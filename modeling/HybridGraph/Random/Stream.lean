import HybridGraph.Number.Binary
/-!
# Seeded random words

A reproducible stream of 64-bit words: the ChaCha block function with twelve rounds over a counter
that starts at zero, keyed by eight words that a linear congruential generator expands from a
64-bit seed.  `draws seed n` is the first `n` words of the stream of a seed; a longer request
begins with the words of a shorter one.
-/

namespace HybridGraph.Random

/-! ## Expanding the seed -/

/-- One step of the seed generator. -/
def seedStep (state : UInt64) : UInt64 := state * 6364136223846793005 + 11634580027462260723

/-- The output of a generator state: a permuted part of it. -/
def seedWord (state : UInt64) : UInt32 :=
  let x := (((state >>> 18) ^^^ state) >>> 27).toUInt32
  let turn := (state >>> 59).toUInt32
  (x >>> turn) ||| (x <<< ((32 - turn) % 32))

/-- The key words of a seed. -/
def keyWords : Nat → UInt64 → List UInt32
  | 0, _ => []
  | n + 1, state => seedWord (seedStep state) :: keyWords n (seedStep state)

/-! ## The block function -/

/-- Turns the bits of a word to the left. -/
def rotate (x : UInt32) (places : UInt32) : UInt32 := (x <<< places) ||| (x >>> (32 - places))

/-- Mixes four words of a block. -/
def quarterRound (s : Array UInt32) (a b c d : Nat) : Array UInt32 :=
  let mix (s : Array UInt32) (x y z : Nat) (turn : UInt32) : Array UInt32 :=
    let s := s.set! x (s[x]! + s[y]!)
    s.set! z (rotate (s[z]! ^^^ s[x]!) turn)
  mix (mix (mix (mix s a b d 16) c d b 12) a b d 8) c d b 7

/-- A round over the columns and one over the diagonals. -/
def doubleRound (s : Array UInt32) : Array UInt32 :=
  let s := quarterRound s 0 4 8 12
  let s := quarterRound s 1 5 9 13
  let s := quarterRound s 2 6 10 14
  let s := quarterRound s 3 7 11 15
  let s := quarterRound s 0 5 10 15
  let s := quarterRound s 1 6 11 12
  let s := quarterRound s 2 7 8 13
  quarterRound s 3 4 9 14

/-- The block before mixing: four constants, the key, the counter and an empty nonce. -/
def blockInput (key : List UInt32) (counter : Nat) : Array UInt32 :=
  ([0x61707865, 0x3320646e, 0x79622d32, 0x6b206574] ++ key ++
    [UInt32.ofNat counter, UInt32.ofNat (counter / Number.twoPow 32), 0, 0]).toArray

/-- The sixteen words of a block. -/
def block (key : List UInt32) (counter : Nat) : List UInt32 :=
  let input := blockInput key counter
  let mixed := (List.range 6).foldl (fun s _ => doubleRound s) input
  (Array.zipWith (· + ·) mixed input).toList

/-- Pairs of words as one, the low half first. -/
def pairWords : List UInt32 → List UInt64
  | low :: high :: rest => (high.toUInt64 <<< 32 ||| low.toUInt64) :: pairWords rest
  | _ => []

/-- The first `n` words of the stream of a seed. -/
def draws (seed : UInt64) (n : Nat) : List UInt64 :=
  let key := keyWords 8 seed
  ((List.range ((n + 7) / 8)).flatMap fun counter => pairWords (block key counter)).take n

/-! ## Numbers in an interval -/

/-- The largest number drawn from the unit interval. -/
def unitLimit : Float := 1.0 - Float.ofBits 0x3cb0000000000000

/-- A number in `[0, 1)` from the upper bits of a word. -/
def unit (word : UInt64) : Float := Float.ofBits ((word >>> 12) ||| 0x3ff0000000000000) - 1.0

/-- Lowers a scale step by step until no draw passes `high`. -/
def fitScale (low high : Float) : Nat → Float → Float
  | 0, scale => scale
  | steps + 1, scale =>
    if scale * unitLimit + low > high then
      fitScale low high steps (Float.ofBits (scale.toBits - 1))
    else scale

/-- A number between `low` and `high`, both included. -/
def uniform (low high : Float) (word : UInt64) : Float :=
  unit word * fitScale low high 64 ((high - low) / unitLimit) + low

end HybridGraph.Random
