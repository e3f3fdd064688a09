/-
UTF-8.

Encoding maps each code point to one to four bytes. Decoding reads the bytes
from left to right and yields pieces: a piece is either a character or a flaw,
a maximal run of bytes that begins like a character and does not end like one.
A tolerant reader shows one replacement character for each flaw; a strict
reader reports the first.

The decoder keeps what it still expects: how many bytes, and the range of the
next one. That range is narrower than 0x80 to 0xBF only after E0, ED, F0 and
F4, which keeps out overlong forms, surrogates and numbers beyond U+10FFFF.
-/
import Provenance.Text.Hex

set_option autoImplicit false

namespace Provenance

/-- A byte sequence. -/
abbrev Bytes := List UInt8

namespace Utf8

/-! ## Encoding -/

/-- The bytes of a text. -/
def encode (t : Text) : Bytes := t.flatMap String.utf8EncodeChar

/-! ## Decoding -/

/-- Why a run of bytes is no character. -/
inductive Reason where
  /-- no character begins with this byte -/
  | badStart
  /-- a byte that cannot go on the character begun -/
  | badContinuation
  /-- the bytes end within a character -/
  | truncated
  deriving DecidableEq, Repr

/-- The wording of a reason. -/
def Reason.message : Reason → Text
  | .badStart => "invalid start byte".toList
  | .badContinuation => "invalid continuation byte".toList
  | .truncated => "unexpected end of data".toList

/-- A run of bytes that is no character: the bytes, how many bytes stand before them, and why. -/
structure Flaw where
  bytes : Bytes
  position : Nat
  reason : Reason
  deriving DecidableEq, Repr

/-- The position and kind of a flaw in words. A single byte is shown, a longer run is not. -/
def Flaw.message (f : Flaw) : Text :=
  let place := match f.bytes with
    | [b] => "byte 0x".toList ++ hexText 2 b.toNat ++ " in position ".toList ++ Text.ofNat f.position
    | _ => "bytes in position ".toList ++ Text.ofNat f.position ++ ['-']
        ++ Text.ofNat (f.position + f.bytes.length - 1)
  "'utf-8' codec can't decode ".toList ++ place ++ ": ".toList ++ f.reason.message

/-- What the decoder yields. -/
inductive Piece where
  | char (c : Char)
  | flaw (f : Flaw)
  deriving DecidableEq, Repr

/-- A character begun: the bytes read of it (last first), the number they stand for so far, how many
bytes are to come, and the range of the next. -/
structure Begun where
  read : Bytes
  value : Nat
  missing : Nat
  low : Nat
  high : Nat

/-- How a byte starts a character: at once, with more to come, or not at all. -/
inductive Start where
  | whole (c : Char)
  | begun (b : Begun)
  | none

/-- The role of a byte at the beginning of a character. -/
def start (b : UInt8) : Start :=
  let n := b.toNat
  if n < 0x80 then .whole (Char.ofNat n)
  else if n < 0xC2 then .none
  else if n < 0xE0 then .begun ⟨[b], n - 0xC0, 1, 0x80, 0xBF⟩
  else if n < 0xF0 then
    .begun ⟨[b], n - 0xE0, 2, if n = 0xE0 then 0xA0 else 0x80, if n = 0xED then 0x9F else 0xBF⟩
  else if n < 0xF5 then
    .begun ⟨[b], n - 0xF0, 3, if n = 0xF0 then 0x90 else 0x80, if n = 0xF4 then 0x8F else 0xBF⟩
  else .none

/-- The pieces of the bytes that follow the first `position` ones, given the character begun. -/
def piecesFrom : Nat → Option Begun → Bytes → List Piece
  | _, none, [] => []
  | position, some g, [] =>
    [.flaw ⟨g.read.reverse, position - g.read.length, .truncated⟩]
  | position, none, b :: rest =>
    match start b with
    | .whole c => .char c :: piecesFrom (position + 1) none rest
    | .begun g => piecesFrom (position + 1) (some g) rest
    | .none => .flaw ⟨[b], position, .badStart⟩ :: piecesFrom (position + 1) none rest
  | position, some g, b :: rest =>
    if g.low ≤ b.toNat ∧ b.toNat ≤ g.high then
      let value := g.value * 64 + (b.toNat - 0x80)
      if g.missing = 1 then .char (Char.ofNat value) :: piecesFrom (position + 1) none rest
      else piecesFrom (position + 1) (some ⟨b :: g.read, value, g.missing - 1, 0x80, 0xBF⟩) rest
    else
      .flaw ⟨g.read.reverse, position - g.read.length, .badContinuation⟩ ::
        match start b with
        | .whole c => .char c :: piecesFrom (position + 1) none rest
        | .begun g' => piecesFrom (position + 1) (some g') rest
        | .none => .flaw ⟨[b], position, .badStart⟩ :: piecesFrom (position + 1) none rest

/-- The pieces of a byte sequence. -/
def pieces (bs : Bytes) : List Piece := piecesFrom 0 none bs

/-- The text of the bytes, with one U+FFFD for each flaw. -/
def decodeLossy (bs : Bytes) : Text :=
  (pieces bs).map fun
    | .char c => c
    | .flaw _ => '\uFFFD'

/-- The characters of the pieces up to the first flaw, which is the error. -/
def strictly : List Piece → Except Flaw Text
  | [] => .ok []
  | .char c :: rest => (strictly rest).map (c :: ·)
  | .flaw f :: _ => .error f

/-- The text of the bytes if they are UTF-8; else their first flaw. -/
def decode (bs : Bytes) : Except Flaw Text := strictly (pieces bs)

/-! ## Decoding in parts -/

/-- Whether a flaw may still become something else when more bytes follow `tail`, the bytes from the
flaw on. Besides a character cut off these are the first two bytes of a surrogate: they are no
character, but that is not held against them before the third. -/
def Flaw.isOpen (f : Flaw) (tail : Bytes) : Bool :=
  f.reason = .truncated ||
    match tail with
    | [0xED, b] => 0xA0 ≤ b && b ≤ 0xBF
    | _ => false

/-- The characters of the pieces up to the first flaw, and the flaw. -/
def untilFlaw : List Piece → Text × Option Flaw
  | [] => ([], none)
  | .char c :: rest => let (t, flaw) := untilFlaw rest; (c :: t, flaw)
  | .flaw f :: _ => ([], some f)

/-- The text of bytes that more bytes may follow, and those at their end that have to wait for the
bytes to come. -/
def decodePart (bs : Bytes) : Except Flaw (Text × Bytes) :=
  match untilFlaw (pieces bs) with
  | (t, none) => .ok (t, [])
  | (t, some f) =>
    let tail := bs.drop f.position
    if f.isOpen tail then .ok (t, tail) else .error f

end Utf8

end Provenance
