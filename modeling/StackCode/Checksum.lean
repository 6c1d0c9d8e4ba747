/-
The checksum of an image: the 64-bit xxHash of a byte string, with seed zero.

A long string is folded 32 bytes at a time into four lanes, and the lanes are
merged; what is left over is mixed in eight, four and one bytes at a time.  All
arithmetic is on 64-bit words and wraps.
-/

namespace StackCode.Checksum

def prime1 : UInt64 := 0x9E3779B185EBCA87
def prime2 : UInt64 := 0xC2B2AE3D27D4EB4F
def prime3 : UInt64 := 0x165667B19E3779F9
def prime4 : UInt64 := 0x85EBCA77C2B2AE63
def prime5 : UInt64 := 0x27D4EB2F165667C5

/-- The word rotated left by `n` places, for `n` between 1 and 63. -/
def rotateLeft (x : UInt64) (n : UInt64) : UInt64 := (x <<< n) ||| (x >>> (64 - n))

/-- The word that the first `n` bytes spell, least significant first. -/
def word (n : Nat) (bs : List UInt8) : UInt64 :=
  (bs.take n).foldr (fun b w => (w <<< 8) ||| b.toUInt64) 0

/-- Mix a word of input into a lane. -/
def round (lane input : UInt64) : UInt64 :=
  rotateLeft (lane + input * prime2) 31 * prime1

/-- Mix a lane into the hash. -/
def mergeLane (hash lane : UInt64) : UInt64 := (hash ^^^ round 0 lane) * prime1 + prime4

/-- The four lanes of the long-string loop. -/
structure Lanes where
  a : UInt64
  b : UInt64
  c : UInt64
  d : UInt64

/-- The lanes before any input. -/
def Lanes.start : Lanes := ⟨prime1 + prime2, prime2, 0, 0 - prime1⟩

/-- Fold `n` stripes of 32 bytes into the lanes. -/
def stripes : Nat → Lanes → List UInt8 → Lanes
  | 0, v, _ => v
  | n + 1, v, bs =>
    stripes n
      ⟨round v.a (word 8 bs), round v.b (word 8 (bs.drop 8)),
       round v.c (word 8 (bs.drop 16)), round v.d (word 8 (bs.drop 24))⟩
      (bs.drop 32)

/-- The four lanes as one hash. -/
def Lanes.merge (v : Lanes) : UInt64 :=
  let hash := rotateLeft v.a 1 + rotateLeft v.b 7 + rotateLeft v.c 12 + rotateLeft v.d 18
  mergeLane (mergeLane (mergeLane (mergeLane hash v.a) v.b) v.c) v.d

/-- Mix in `n` words of eight bytes. -/
def mixWords : Nat → UInt64 → List UInt8 → UInt64
  | 0, hash, _ => hash
  | n + 1, hash, bs =>
    mixWords n (rotateLeft (hash ^^^ round 0 (word 8 bs)) 27 * prime1 + prime4) (bs.drop 8)

/-- Mix in single bytes. -/
def mixBytes (hash : UInt64) (bs : List UInt8) : UInt64 :=
  bs.foldl (fun h b => rotateLeft (h ^^^ (b.toUInt64 * prime5)) 11 * prime1) hash

/-- Mix in fewer than 32 bytes. -/
def mixTail (hash : UInt64) (bs : List UInt8) : UInt64 :=
  let words := bs.length / 8
  let hash := mixWords words hash bs
  let rest := bs.drop (8 * words)
  if 4 ≤ rest.length then
    mixBytes (rotateLeft (hash ^^^ (word 4 rest * prime1)) 23 * prime2 + prime3) (rest.drop 4)
  else
    mixBytes hash rest

/-- Spread every bit of the hash over the whole word. -/
def avalanche (hash : UInt64) : UInt64 :=
  let hash := (hash ^^^ (hash >>> 33)) * prime2
  let hash := (hash ^^^ (hash >>> 29)) * prime3
  hash ^^^ (hash >>> 32)

/-- The 64-bit xxHash of a byte string. -/
def xxh64 (bs : List UInt8) : UInt64 :=
  let size := bs.length
  let full := size / 32
  let hash := if full = 0 then prime5 else (stripes full Lanes.start bs).merge
  avalanche (mixTail (hash + UInt64.ofNat size) (bs.drop (32 * full)))

end StackCode.Checksum
