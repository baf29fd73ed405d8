/-
The SHA-256 message digest on byte lists.

Padding, the message schedule and the compression function are spelled out on
32-bit words; `digest` folds the compression over the blocks of the padded
message. The only fact proved about it is the one a consumer of digests relies
on: every digest has 32 bytes.
-/

import Mathlib.Algebra.Group.Nat.Defs
import Mathlib.Data.List.Basic

namespace Sha256

/-- The eight working variables, also the chaining value between blocks. -/
structure Words where
  a : UInt32
  b : UInt32
  c : UInt32
  d : UInt32
  e : UInt32
  f : UInt32
  g : UInt32
  h : UInt32

def initial : Words :=
  ⟨0x6a09e667, 0xbb67ae85, 0x3c6ef372, 0xa54ff53a, 0x510e527f, 0x9b05688c, 0x1f83d9ab, 0x5be0cd19⟩

def roundConstants : List UInt32 :=
  [0x428a2f98, 0x71374491, 0xb5c0fbcf, 0xe9b5dba5, 0x3956c25b, 0x59f111f1, 0x923f82a4, 0xab1c5ed5,
   0xd807aa98, 0x12835b01, 0x243185be, 0x550c7dc3, 0x72be5d74, 0x80deb1fe, 0x9bdc06a7, 0xc19bf174,
   0xe49b69c1, 0xefbe4786, 0x0fc19dc6, 0x240ca1cc, 0x2de92c6f, 0x4a7484aa, 0x5cb0a9dc, 0x76f988da,
   0x983e5152, 0xa831c66d, 0xb00327c8, 0xbf597fc7, 0xc6e00bf3, 0xd5a79147, 0x06ca6351, 0x14292967,
   0x27b70a85, 0x2e1b2138, 0x4d2c6dfc, 0x53380d13, 0x650a7354, 0x766a0abb, 0x81c2c92e, 0x92722c85,
   0xa2bfe8a1, 0xa81a664b, 0xc24b8b70, 0xc76c51a3, 0xd192e819, 0xd6990624, 0xf40e3585, 0x106aa070,
   0x19a4c116, 0x1e376c08, 0x2748774c, 0x34b0bcb5, 0x391c0cb3, 0x4ed8aa4a, 0x5b9cca4f, 0x682e6ff3,
   0x748f82ee, 0x78a5636f, 0x84c87814, 0x8cc70208, 0x90befffa, 0xa4506ceb, 0xbef9a3f7, 0xc67178f2]

def rotr (x : UInt32) (k : UInt32) : UInt32 := (x >>> k) ||| (x <<< (32 - k))

/-- Extend the schedule, newest word first, by `count` words. -/
def extend : Nat → List UInt32 → List UInt32
  | 0, ws => ws
  | count + 1, ws =>
      let w2 := ws.getD 1 0
      let w15 := ws.getD 14 0
      let s1 := rotr w2 17 ^^^ rotr w2 19 ^^^ (w2 >>> 10)
      let s0 := rotr w15 7 ^^^ rotr w15 18 ^^^ (w15 >>> 3)
      extend count ((s1 + ws.getD 6 0 + s0 + ws.getD 15 0) :: ws)

def round (v : Words) (kw : UInt32 × UInt32) : Words :=
  let s1 := rotr v.e 6 ^^^ rotr v.e 11 ^^^ rotr v.e 25
  let choice := (v.e &&& v.f) ^^^ (~~~v.e &&& v.g)
  let t1 := v.h + s1 + choice + kw.1 + kw.2
  let s0 := rotr v.a 2 ^^^ rotr v.a 13 ^^^ rotr v.a 22
  let majority := (v.a &&& v.b) ^^^ (v.a &&& v.c) ^^^ (v.b &&& v.c)
  ⟨t1 + (s0 + majority), v.a, v.b, v.c, v.d + t1, v.e, v.f, v.g⟩

/-- Big-endian words of a byte list whose length is a multiple of four. -/
def wordsOf : List UInt8 → List UInt32
  | b0 :: b1 :: b2 :: b3 :: rest =>
      ((b0.toUInt32 <<< 24) ||| (b1.toUInt32 <<< 16) ||| (b2.toUInt32 <<< 8) ||| b3.toUInt32) ::
        wordsOf rest
  | _ => []

def compress (v : Words) (block : List UInt8) : Words :=
  let schedule := (extend 48 (wordsOf block).reverse).reverse
  let w := (roundConstants.zip schedule).foldl round v
  ⟨v.a + w.a, v.b + w.b, v.c + w.c, v.d + w.d, v.e + w.e, v.f + w.f, v.g + w.g, v.h + w.h⟩

def bytesOf (w : UInt32) : List UInt8 :=
  [(w >>> 24).toUInt8, (w >>> 16).toUInt8, (w >>> 8).toUInt8, w.toUInt8]

/-- The message, a set bit, zeros up to eight bytes short of a block boundary,
and the message length in bits. -/
def pad (message : List UInt8) : List UInt8 :=
  let bits := 8 * message.length
  message ++ 0x80 :: List.replicate ((119 - message.length % 64) % 64) 0 ++
    (bytesOf (UInt32.ofNat (bits / 2 ^ 32)) ++ bytesOf (UInt32.ofNat bits))

/-- Fold the compression function over `count` blocks of 64 bytes. -/
def absorb : Nat → Words → List UInt8 → Words
  | 0, v, _ => v
  | count + 1, v, bytes => absorb count (compress v (bytes.take 64)) (bytes.drop 64)

def digest (message : List UInt8) : List UInt8 :=
  let v := absorb ((pad message).length / 64) initial (pad message)
  bytesOf v.a ++ bytesOf v.b ++ bytesOf v.c ++ bytesOf v.d ++
    (bytesOf v.e ++ bytesOf v.f ++ bytesOf v.g ++ bytesOf v.h)

@[simp] theorem length_digest (message : List UInt8) : (digest message).length = 32 := rfl

-- The digest of the three bytes "abc".
example : digest [97, 98, 99] =
    [0xba, 0x78, 0x16, 0xbf, 0x8f, 0x01, 0xcf, 0xea, 0x41, 0x41, 0x40, 0xde, 0x5d, 0xae, 0x22, 0x23,
     0xb0, 0x03, 0x61, 0xa3, 0x96, 0x17, 0x7a, 0x9c, 0xb4, 0x10, 0xff, 0x61, 0xf2, 0x00, 0x15, 0xad] := by
  decide +kernel

end Sha256
