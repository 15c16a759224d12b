/-!
# SHA-256

The SHA-256 digest of a byte sequence: the message is padded to blocks of sixty-four bytes, each of
which updates a state of eight 32-bit words.
Spec guidance: `SPEC_FULL.md` §10.4.
-/

namespace LoopKernel.Sha256

/-- The round constants: the first bits of the fractional parts of the cube roots of primes. -/
def roundConstants : List UInt32 :=
  [0x428a2f98, 0x71374491, 0xb5c0fbcf, 0xe9b5dba5, 0x3956c25b, 0x59f111f1, 0x923f82a4, 0xab1c5ed5,
    0xd807aa98, 0x12835b01, 0x243185be, 0x550c7dc3, 0x72be5d74, 0x80deb1fe, 0x9bdc06a7, 0xc19bf174,
    0xe49b69c1, 0xefbe4786, 0x0fc19dc6, 0x240ca1cc, 0x2de92c6f, 0x4a7484aa, 0x5cb0a9dc, 0x76f988da,
    0x983e5152, 0xa831c66d, 0xb00327c8, 0xbf597fc7, 0xc6e00bf3, 0xd5a79147, 0x06ca6351, 0x14292967,
    0x27b70a85, 0x2e1b2138, 0x4d2c6dfc, 0x53380d13, 0x650a7354, 0x766a0abb, 0x81c2c92e, 0x92722c85,
    0xa2bfe8a1, 0xa81a664b, 0xc24b8b70, 0xc76c51a3, 0xd192e819, 0xd6990624, 0xf40e3585, 0x106aa070,
    0x19a4c116, 0x1e376c08, 0x2748774c, 0x34b0bcb5, 0x391c0cb3, 0x4ed8aa4a, 0x5b9cca4f, 0x682e6ff3,
    0x748f82ee, 0x78a5636f, 0x84c87814, 0x8cc70208, 0x90befffa, 0xa4506ceb, 0xbef9a3f7, 0xc67178f2]

/-- The eight words between blocks. -/
structure State where
  a : UInt32
  b : UInt32
  c : UInt32
  d : UInt32
  e : UInt32
  f : UInt32
  g : UInt32
  h : UInt32

/-- The state before the first block. -/
def State.start : State :=
  ⟨0x6a09e667, 0xbb67ae85, 0x3c6ef372, 0xa54ff53a, 0x510e527f, 0x9b05688c, 0x1f83d9ab, 0x5be0cd19⟩

/-- The word-wise sum. -/
def State.add (s t : State) : State :=
  ⟨s.a + t.a, s.b + t.b, s.c + t.c, s.d + t.d, s.e + t.e, s.f + t.f, s.g + t.g, s.h + t.h⟩

/-- The words of a state, in order. -/
def State.words (s : State) : List UInt32 := [s.a, s.b, s.c, s.d, s.e, s.f, s.g, s.h]

/-- Rotation to the right. -/
def rotate (x : UInt32) (n : UInt32) : UInt32 := (x >>> n) ||| (x <<< (32 - n))

/-- One round with its constant and message word. -/
def round (s : State) (constant word : UInt32) : State :=
  let sum1 := rotate s.e 6 ^^^ rotate s.e 11 ^^^ rotate s.e 25
  let choice := (s.e &&& s.f) ^^^ (~~~s.e &&& s.g)
  let t1 := s.h + sum1 + choice + constant + word
  let sum0 := rotate s.a 2 ^^^ rotate s.a 13 ^^^ rotate s.a 22
  let majority := (s.a &&& s.b) ^^^ (s.a &&& s.c) ^^^ (s.b &&& s.c)
  ⟨t1 + (sum0 + majority), s.a, s.b, s.c, s.d + t1, s.e, s.f, s.g⟩

/-- The next message word from the sixteen words before it. -/
def nextWord (window : Array UInt32) : UInt32 :=
  let item (i : Nat) : UInt32 := window[i]?.getD 0
  let w1 := item 1
  let w14 := item 14
  let sigma0 := rotate w1 7 ^^^ rotate w1 18 ^^^ (w1 >>> 3)
  let sigma1 := rotate w14 17 ^^^ rotate w14 19 ^^^ (w14 >>> 10)
  item 0 + sigma0 + item 9 + sigma1

/-- Run the rounds that are left, with the message words to come in a window of sixteen. -/
def rounds : List UInt32 → Array UInt32 → State → State
  | [], _, s => s
  | constant :: rest, window, s =>
    let next := nextWord window
    rounds rest ((window.extract 1 16).push next) (round s constant (window[0]?.getD 0))

/-- The state after a block of sixteen words. -/
def compress (s : State) (block : List UInt32) : State :=
  s.add (rounds roundConstants block.toArray s)

/-- Four bytes as a word, the first one highest. -/
def word (a b c d : UInt8) : UInt32 :=
  (a.toUInt32 <<< 24) ||| (b.toUInt32 <<< 16) ||| (c.toUInt32 <<< 8) ||| d.toUInt32

/-- Bytes as words, four at a time. -/
def words : List UInt8 → List UInt32
  | a :: b :: c :: d :: rest => word a b c d :: words rest
  | _ => []

/-- The bytes of a number, the highest one first. -/
def bytesOf : (count : Nat) → Nat → List UInt8
  | 0, _ => []
  | count + 1, n => bytesOf count (n / 256) ++ [(n % 256).toUInt8]

/-- The message with a one bit, zeros and its length in bits, a multiple of sixty-four bytes. -/
def padded (message : List UInt8) : List UInt8 :=
  let zeros := (119 - message.length % 64) % 64
  message ++ 0x80 :: List.replicate zeros 0 ++ bytesOf 8 (8 * message.length)

/-- Update the state by all blocks of a list of words; `count` bounds their number. -/
def absorb : (count : Nat) → List UInt32 → State → State
  | 0, _, s => s
  | count + 1, ws, s =>
    if ws.isEmpty then s else absorb count (ws.drop 16) (compress s (ws.take 16))

/-- The digest as eight words. -/
def digest (message : List UInt8) : List UInt32 :=
  let ws := words (padded message)
  (absorb (ws.length / 16) ws .start).words

/-- A word as eight hexadecimal digits. -/
def wordHex (w : UInt32) : String :=
  let digits := Nat.toDigits 16 w.toNat
  String.ofList (List.replicate (8 - digits.length) '0' ++ digits)

/-- The digest of the bytes of a text, in hexadecimal. -/
def ofText (text : String) : String :=
  String.join ((digest text.toUTF8.toList).map wordHex)

end LoopKernel.Sha256
