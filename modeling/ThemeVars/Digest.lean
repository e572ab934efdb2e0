/-
The SHA-256 digest of a sequence of bytes, and its first characters in
hexadecimal, by which names are told apart.
-/

namespace ThemeVars.Digest

/-- The eight words that a digest is made of. -/
structure State where
  a : UInt32
  b : UInt32
  c : UInt32
  d : UInt32
  e : UInt32
  f : UInt32
  g : UInt32
  h : UInt32
deriving DecidableEq

/-- The state before the first block. -/
def start : State :=
  ⟨0x6a09e667, 0xbb67ae85, 0x3c6ef372, 0xa54ff53a, 0x510e527f, 0x9b05688c, 0x1f83d9ab, 0x5be0cd19⟩

/-- The constant that each round adds. -/
def roundConstants : List UInt32 :=
  [0x428a2f98, 0x71374491, 0xb5c0fbcf, 0xe9b5dba5, 0x3956c25b, 0x59f111f1, 0x923f82a4, 0xab1c5ed5,
   0xd807aa98, 0x12835b01, 0x243185be, 0x550c7dc3, 0x72be5d74, 0x80deb1fe, 0x9bdc06a7, 0xc19bf174,
   0xe49b69c1, 0xefbe4786, 0x0fc19dc6, 0x240ca1cc, 0x2de92c6f, 0x4a7484aa, 0x5cb0a9dc, 0x76f988da,
   0x983e5152, 0xa831c66d, 0xb00327c8, 0xbf597fc7, 0xc6e00bf3, 0xd5a79147, 0x06ca6351, 0x14292967,
   0x27b70a85, 0x2e1b2138, 0x4d2c6dfc, 0x53380d13, 0x650a7354, 0x766a0abb, 0x81c2c92e, 0x92722c85,
   0xa2bfe8a1, 0xa81a664b, 0xc24b8b70, 0xc76c51a3, 0xd192e819, 0xd6990624, 0xf40e3585, 0x106aa070,
   0x19a4c116, 0x1e376c08, 0x2748774c, 0x34b0bcb5, 0x391c0cb3, 0x4ed8aa4a, 0x5b9cca4f, 0x682e6ff3,
   0x748f82ee, 0x78a5636f, 0x84c87814, 0x8cc70208, 0x90befffa, 0xa4506ceb, 0xbef9a3f7, 0xc67178f2]

def rotate (x n : UInt32) : UInt32 := (x >>> n) ||| (x <<< (32 - n))

/-- One round, with its constant and its word of the schedule. -/
def State.round (s : State) (constant word : UInt32) : State :=
  let big := rotate s.e 6 ^^^ rotate s.e 11 ^^^ rotate s.e 25
  let choice := (s.e &&& s.f) ^^^ ((~~~ s.e) &&& s.g)
  let first := s.h + big + choice + constant + word
  let small := rotate s.a 2 ^^^ rotate s.a 13 ^^^ rotate s.a 22
  let majority := (s.a &&& s.b) ^^^ (s.a &&& s.c) ^^^ (s.b &&& s.c)
  ⟨first + (small + majority), s.a, s.b, s.c, s.d + first, s.e, s.f, s.g⟩

def State.add (s t : State) : State :=
  ⟨s.a + t.a, s.b + t.b, s.c + t.c, s.d + t.d, s.e + t.e, s.f + t.f, s.g + t.g, s.h + t.h⟩

/-- The next `n` words of a schedule, each made of the sixteen words before
it, which `recent` lists oldest first. -/
def extend (recent : List UInt32) : Nat → List UInt32
  | 0 => []
  | n + 1 =>
    match recent with
    | w0 :: w1 :: rest =>
      let w9 := rest.getD 7 0
      let w14 := rest.getD 12 0
      let low := rotate w1 7 ^^^ rotate w1 18 ^^^ (w1 >>> 3)
      let high := rotate w14 17 ^^^ rotate w14 19 ^^^ (w14 >>> 10)
      let word := w0 + low + w9 + high
      word :: extend (w1 :: rest ++ [word]) n
    | _ => []

/-- The state after a block of sixteen words. -/
def State.absorb (s : State) (block : List UInt32) : State :=
  let schedule := block ++ extend block 48
  s.add ((roundConstants.zip schedule).foldl (fun t p => t.round p.1 p.2) s)

/-- The bytes of a number, most significant first. -/
def bigEndian (n : Nat) : Nat → List UInt8
  | 0 => []
  | k + 1 => UInt8.ofNat (n / 256 ^ k) :: bigEndian n k

/-- The bytes filled up to whole blocks: a one bit, zeros, and the length in
bits in eight bytes. -/
def padded (bytes : List UInt8) : List UInt8 :=
  let zeros := (119 - bytes.length % 64) % 64
  bytes ++ 0x80 :: List.replicate zeros 0 ++ bigEndian (bytes.length * 8) 8

/-- The bytes in words of four; a remainder of less than four is dropped. -/
def words : List UInt8 → List UInt32
  | b0 :: b1 :: b2 :: b3 :: rest =>
    (b0.toUInt32 <<< 24 ||| b1.toUInt32 <<< 16 ||| b2.toUInt32 <<< 8 ||| b3.toUInt32) :: words rest
  | _ => []

/-- The state after `count` blocks of sixteen words. -/
def absorbBlocks (s : State) (schedule : List UInt32) : Nat → State
  | 0 => s
  | count + 1 => absorbBlocks (s.absorb (schedule.take 16)) (schedule.drop 16) count

def sha256 (bytes : List UInt8) : State :=
  let schedule := words (padded bytes)
  absorbBlocks start schedule (schedule.length / 16)

def hexDigit (n : Nat) : Char := Char.ofNat (if n < 10 then 48 + n else 87 + n)

/-- Eight hexadecimal digits. -/
def hexWord (w : UInt32) : List Char :=
  (bigEndian w.toNat 4).flatMap fun b => [hexDigit (b.toNat / 16), hexDigit (b.toNat % 16)]

/-- The first eight hexadecimal digits of the digest of the text's bytes. -/
def short (text : String) : String :=
  String.ofList (hexWord (sha256 text.toUTF8.toList).a)

end ThemeVars.Digest
