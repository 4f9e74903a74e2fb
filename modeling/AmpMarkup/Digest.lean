import AmpMarkup.Text.Numeral
import AmpMarkup.Text.Utf8

/-! The SHA-256 digest of a text in UTF-8. Words have 32 bits and add modulo `2 ^ 32`. -/

namespace AmpMarkup.Digest

/-- The first 32 bits of the fractional parts of the cube roots of the first 64 primes. -/
def roundConstants : List UInt32 :=
  [0x428a2f98, 0x71374491, 0xb5c0fbcf, 0xe9b5dba5, 0x3956c25b, 0x59f111f1, 0x923f82a4, 0xab1c5ed5,
    0xd807aa98, 0x12835b01, 0x243185be, 0x550c7dc3, 0x72be5d74, 0x80deb1fe, 0x9bdc06a7, 0xc19bf174,
    0xe49b69c1, 0xefbe4786, 0x0fc19dc6, 0x240ca1cc, 0x2de92c6f, 0x4a7484aa, 0x5cb0a9dc, 0x76f988da,
    0x983e5152, 0xa831c66d, 0xb00327c8, 0xbf597fc7, 0xc6e00bf3, 0xd5a79147, 0x06ca6351, 0x14292967,
    0x27b70a85, 0x2e1b2138, 0x4d2c6dfc, 0x53380d13, 0x650a7354, 0x766a0abb, 0x81c2c92e, 0x92722c85,
    0xa2bfe8a1, 0xa81a664b, 0xc24b8b70, 0xc76c51a3, 0xd192e819, 0xd6990624, 0xf40e3585, 0x106aa070,
    0x19a4c116, 0x1e376c08, 0x2748774c, 0x34b0bcb5, 0x391c0cb3, 0x4ed8aa4a, 0x5b9cca4f, 0x682e6ff3,
    0x748f82ee, 0x78a5636f, 0x84c87814, 0x8cc70208, 0x90befffa, 0xa4506ceb, 0xbef9a3f7, 0xc67178f2]

/-- Eight words: the state of the digest between blocks and inside one. -/
structure Chain where
  a : UInt32
  b : UInt32
  c : UInt32
  d : UInt32
  e : UInt32
  f : UInt32
  g : UInt32
  h : UInt32
deriving DecidableEq, Repr, Inhabited

/-- The first 32 bits of the fractional parts of the square roots of the first eight primes. -/
def Chain.start : Chain :=
  ⟨0x6a09e667, 0xbb67ae85, 0x3c6ef372, 0xa54ff53a, 0x510e527f, 0x9b05688c, 0x1f83d9ab, 0x5be0cd19⟩

/-- A word turned to the right. -/
def rotate (x n : UInt32) : UInt32 :=
  (x >>> n) ||| (x <<< (32 - n))

/-- One round with a word of the schedule and its constant. -/
def Chain.round (s : Chain) (word constant : UInt32) : Chain :=
  let t1 := s.h + (rotate s.e 6 ^^^ rotate s.e 11 ^^^ rotate s.e 25) +
    ((s.e &&& s.f) ^^^ (~~~s.e &&& s.g)) + constant + word
  let t2 := (rotate s.a 2 ^^^ rotate s.a 13 ^^^ rotate s.a 22) +
    ((s.a &&& s.b) ^^^ (s.a &&& s.c) ^^^ (s.b &&& s.c))
  ⟨t1 + t2, s.a, s.b, s.c, s.d + t1, s.e, s.f, s.g⟩

/-- Word by word sum. -/
def Chain.add (s t : Chain) : Chain :=
  ⟨s.a + t.a, s.b + t.b, s.c + t.c, s.d + t.d, s.e + t.e, s.f + t.f, s.g + t.g, s.h + t.h⟩

/-- The words of a state in order. -/
def Chain.words (s : Chain) : List UInt32 :=
  [s.a, s.b, s.c, s.d, s.e, s.f, s.g, s.h]

/-- Continues the schedule by `count` words. The last sixteen words are given latest first. -/
def extendSchedule : (count : Nat) → (latest : List UInt32) → List UInt32
  | 0, _ => []
  | count + 1, latest =>
    let word (i : Nat) : UInt32 := (latest[i]?).getD 0
    let x := word 14
    let y := word 1
    let next := word 15 + (rotate x 7 ^^^ rotate x 18 ^^^ (x >>> 3)) + word 6 +
      (rotate y 17 ^^^ rotate y 19 ^^^ (y >>> 10))
    next :: extendSchedule count (next :: latest.take 15)

/-- The 64 words that the rounds of a block of sixteen words use. -/
def schedule (block : List UInt32) : List UInt32 :=
  block ++ extendSchedule 48 block.reverse

/-- The state after a block. -/
def Chain.absorb (s : Chain) (block : List UInt32) : Chain :=
  s.add (((schedule block).zip roundConstants).foldl (fun s p => s.round p.1 p.2) s)

/-- Bytes four at a time as words, the most significant byte first. -/
def wordsOf : List UInt8 → List UInt32
  | w :: x :: y :: z :: rest =>
    ((w.toUInt32 <<< 24) ||| (x.toUInt32 <<< 16) ||| (y.toUInt32 <<< 8) ||| z.toUInt32) ::
      wordsOf rest
  | _ => []

/-- The message with a one bit, zero bits and its length in bits, filling whole blocks. -/
def pad (message : List UInt8) : List UInt8 :=
  let zeros := (119 - message.length % 64) % 64
  let lengthBytes := (List.range 8).map fun i =>
    UInt8.ofNat (message.length * 8 / Nat.pow 256 (7 - i) % 256)
  message ++ 0x80 :: List.replicate zeros 0 ++ lengthBytes

/-- Absorbs the words block by block; `count` bounds the blocks. -/
def absorbAll : (count : Nat) → Chain → List UInt32 → Chain
  | 0, s, _ => s
  | count + 1, s, words =>
    if words.isEmpty then s else absorbAll count (s.absorb (words.take 16)) (words.drop 16)

/-- The digest of a message as eight words. -/
def sha256 (message : List UInt8) : List UInt32 :=
  let words := wordsOf (pad message)
  (absorbAll words.length .start words).words

/-- The digest of a text in hexadecimal digits. -/
def hexDigest (t : Text) : Text :=
  (sha256 (Text.utf8 t)).flatMap fun word => Text.hex 8 word.toNat

end AmpMarkup.Digest
