/-
The SHA-256 digest of a byte sequence.

A source unit carries the digest of its text so that two texts can be compared
without keeping either. The definition follows the standard: the message is
padded to whole blocks of sixteen words, each block is spread to sixty-four
words, and sixty-four rounds mix it into the eight words of the state. Words are
32 bits wide and addition wraps, which is what `UInt32` does.
-/
import Provenance.Text.Utf8

set_option autoImplicit false

namespace Provenance.Digest

/-! ## Constants -/

/-- The round constants: the first 32 bits of the fractional parts of the cube roots of the first
sixty-four primes. -/
def roundConstants : List UInt32 :=
  [0x428a2f98, 0x71374491, 0xb5c0fbcf, 0xe9b5dba5, 0x3956c25b, 0x59f111f1, 0x923f82a4, 0xab1c5ed5,
   0xd807aa98, 0x12835b01, 0x243185be, 0x550c7dc3, 0x72be5d74, 0x80deb1fe, 0x9bdc06a7, 0xc19bf174,
   0xe49b69c1, 0xefbe4786, 0x0fc19dc6, 0x240ca1cc, 0x2de92c6f, 0x4a7484aa, 0x5cb0a9dc, 0x76f988da,
   0x983e5152, 0xa831c66d, 0xb00327c8, 0xbf597fc7, 0xc6e00bf3, 0xd5a79147, 0x06ca6351, 0x14292967,
   0x27b70a85, 0x2e1b2138, 0x4d2c6dfc, 0x53380d13, 0x650a7354, 0x766a0abb, 0x81c2c92e, 0x92722c85,
   0xa2bfe8a1, 0xa81a664b, 0xc24b8b70, 0xc76c51a3, 0xd192e819, 0xd6990624, 0xf40e3585, 0x106aa070,
   0x19a4c116, 0x1e376c08, 0x2748774c, 0x34b0bcb5, 0x391c0cb3, 0x4ed8aa4a, 0x5b9cca4f, 0x682e6ff3,
   0x748f82ee, 0x78a5636f, 0x84c87814, 0x8cc70208, 0x90befffa, 0xa4506ceb, 0xbef9a3f7, 0xc67178f2]

/-- The eight words of the state. -/
structure State where
  a : UInt32
  b : UInt32
  c : UInt32
  d : UInt32
  e : UInt32
  f : UInt32
  g : UInt32
  h : UInt32
  deriving DecidableEq, Repr

/-- The initial state: the first 32 bits of the fractional parts of the square roots of the first
eight primes. -/
def initial : State :=
  ⟨0x6a09e667, 0xbb67ae85, 0x3c6ef372, 0xa54ff53a,
   0x510e527f, 0x9b05688c, 0x1f83d9ab, 0x5be0cd19⟩

/-! ## The message -/

/-- Big-endian bytes of a number, `count` of them. -/
def bigEndian : Nat → Nat → Bytes
  | 0, _ => []
  | count + 1, n => bigEndian count (n / 256) ++ [UInt8.ofNat (n % 256)]

/-- The padded message: the bytes, a one bit, zeros, and the length in bits as eight bytes, in all a
multiple of sixty-four bytes. -/
def padded (message : Bytes) : Bytes :=
  message ++ 0x80 :: List.replicate ((119 - message.length % 64) % 64) 0
    ++ bigEndian 8 (message.length * 8)

/-- The big-endian words of a byte sequence; a rest shorter than a word is dropped. -/
def wordsOf : Bytes → List UInt32
  | p :: q :: r :: s :: rest =>
    (p.toUInt32 <<< 24 ||| q.toUInt32 <<< 16 ||| r.toUInt32 <<< 8 ||| s.toUInt32) :: wordsOf rest
  | _ => []

/-! ## One block -/

/-- Rotation to the right. -/
def rotate (x : UInt32) (n : UInt32) : UInt32 := x >>> n ||| x <<< (32 - n)

/-- The next word of a schedule whose words are given last first. -/
def nextWord (recent : List UInt32) : UInt32 :=
  let x := recent.getD 14 0
  let y := recent.getD 1 0
  recent.getD 15 0 + (rotate x 7 ^^^ rotate x 18 ^^^ x >>> 3)
    + recent.getD 6 0 + (rotate y 17 ^^^ rotate y 19 ^^^ y >>> 10)

/-- A schedule, last word first, with `count` more words. -/
def spread : Nat → List UInt32 → List UInt32
  | 0, recent => recent
  | count + 1, recent => spread count (nextWord recent :: recent)

/-- One round with its constant and its word of the schedule. -/
def round (s : State) (k w : UInt32) : State :=
  let t := s.h + (rotate s.e 6 ^^^ rotate s.e 11 ^^^ rotate s.e 25)
    + ((s.e &&& s.f) ^^^ (~~~s.e &&& s.g)) + k + w
  let u := (rotate s.a 2 ^^^ rotate s.a 13 ^^^ rotate s.a 22)
    + ((s.a &&& s.b) ^^^ (s.a &&& s.c) ^^^ (s.b &&& s.c))
  ⟨t + u, s.a, s.b, s.c, s.d + t, s.e, s.f, s.g⟩

/-- The state after a block of sixteen words. -/
def block (s : State) (words : List UInt32) : State :=
  let schedule := (spread 48 words.reverse).reverse
  let m := (roundConstants.zip schedule).foldl (fun s kw => round s kw.1 kw.2) s
  ⟨s.a + m.a, s.b + m.b, s.c + m.c, s.d + m.d, s.e + m.e, s.f + m.f, s.g + m.g, s.h + m.h⟩

/-! ## The digest -/

/-- The state after `count` blocks of the words. -/
def blocks : Nat → State → List UInt32 → State
  | 0, s, _ => s
  | count + 1, s, words => blocks count (block s (words.take 16)) (words.drop 16)

/-- The digest of a byte sequence, in hexadecimal. -/
def ofBytes (message : Bytes) : Text :=
  let words := wordsOf (padded message)
  let s := blocks (words.length / 16) initial words
  [s.a, s.b, s.c, s.d, s.e, s.f, s.g, s.h].flatMap fun w => hexText 8 w.toNat

/-- The digest of the UTF-8 bytes of a text. -/
def ofText (t : Text) : Text := ofBytes (Utf8.encode t)

end Provenance.Digest
