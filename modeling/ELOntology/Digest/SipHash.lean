/-!
# SipHash-1-3

The keyed hash SipHash with one round for every word of eight bytes and three rounds at the end, under the key zero.
The message is a list of bytes; its last word holds the bytes that are left over and, in the top byte, the length of the
message modulo 256.  `Digest.word32`, `word64` and `text` write numbers and strings as the bytes that are hashed.
-/

namespace ELOntology

namespace Digest

structure State where
  v0 : UInt64
  v1 : UInt64
  v2 : UInt64
  v3 : UInt64

def rotl (x : UInt64) (n : UInt64) : UInt64 := (x <<< n) ||| (x >>> (64 - n))

namespace State

/-- The state under the key zero, before any byte. -/
def initial : State :=
  ⟨0x736f6d6570736575, 0x646f72616e646f6d, 0x6c7967656e657261, 0x7465646279746573⟩

def round (s : State) : State :=
  let a0 := s.v0 + s.v1
  let a1 := rotl s.v1 13 ^^^ a0
  let b0 := rotl a0 32
  let a2 := s.v2 + s.v3
  let a3 := rotl s.v3 16 ^^^ a2
  let c0 := b0 + a3
  let c3 := rotl a3 21 ^^^ c0
  let b2 := a2 + a1
  let c1 := rotl a1 17 ^^^ b2
  ⟨c0, c1, rotl b2 32, c3⟩

/-- Take in one word. -/
def absorb (s : State) (word : UInt64) : State :=
  let s := { s with v3 := s.v3 ^^^ word }.round
  { s with v0 := s.v0 ^^^ word }

def finish (s : State) : UInt64 :=
  let s := { s with v2 := s.v2 ^^^ 0xff }.round.round.round
  s.v0 ^^^ s.v1 ^^^ s.v2 ^^^ s.v3

end State

/-- The number whose little-endian bytes are given. -/
def ofBytes : List UInt8 → UInt64
  | [] => 0
  | b :: bs => b.toUInt64 ||| (ofBytes bs <<< 8)

def absorbAll (length : UInt64) : State → List UInt8 → State
  | s, b0 :: b1 :: b2 :: b3 :: b4 :: b5 :: b6 :: b7 :: rest =>
    absorbAll length (s.absorb (ofBytes [b0, b1, b2, b3, b4, b5, b6, b7])) rest
  | s, rest => s.absorb (ofBytes rest ||| (length <<< 56))

def sipHash (message : List UInt8) : UInt64 :=
  (absorbAll (UInt64.ofNat message.length) .initial message).finish

/-- The little-endian bytes of a number, as many as asked for. -/
def bytes : Nat → UInt64 → List UInt8
  | 0, _ => []
  | n + 1, x => x.toUInt8 :: bytes n (x >>> 8)

def word32 (x : UInt32) : List UInt8 := bytes 4 x.toUInt64

def word64 (x : UInt64) : List UInt8 := bytes 8 x

/-- The UTF-8 bytes of a string and the byte `0xff`, which occurs in no UTF-8 text. -/
def text (s : String) : List UInt8 := s.toUTF8.data.toList ++ [0xff]

end Digest

end ELOntology
