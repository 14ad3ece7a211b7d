import Mathlib.Data.Fin.VecNotation
import Mathlib.Order.Bounds.Basic
import Mathlib.Tactic.Ring

/-!
# Hash functions

The hash functions SHA-1, SHA-256 and SHA-512 of the secure hash standard FIPS 180-4, the message
digest MD5 of RFC 1321, and the keyed hashes HMAC of RFC 2104, on messages of bytes.
-/

namespace Grayscale.HashStandards

/-! ### Bytes and words -/

/-- The number of bytes, the highest first. -/
def ofBigEndian (l : List UInt8) : ℕ := l.foldl (fun n c => n * 256 + c.toNat) 0

/-- The number of bytes, the lowest first. -/
def ofLittleEndian (l : List UInt8) : ℕ := ofBigEndian l.reverse

/-- A number in `k` bytes, the highest first. -/
def bigEndian (k n : ℕ) : List UInt8 := ((List.range k).map fun i => (n / 256 ^ i).toUInt8).reverse

/-- A number in `k` bytes, the lowest first. -/
def littleEndian (k n : ℕ) : List UInt8 := (List.range k).map fun i => (n / 256 ^ i).toUInt8

/-- The `i`-th part of a text that is cut into parts of `size` bytes. -/
def part (size : ℕ) (l : List UInt8) (i : ℕ) : List UInt8 := (l.drop (size * i)).take size

/-! ### Padding -/

/-- The zeros between the one bit and the length. -/
def zeroCount (blockSize fieldSize length : ℕ) : ℕ :=
  (blockSize - (length + 1 + fieldSize) % blockSize) % blockSize

/-- A message, a one bit, zeros, and the length of the message in bits. -/
def pad (blockSize fieldSize : ℕ) (encode : ℕ → ℕ → List UInt8) (message : List UInt8) :
    List UInt8 :=
  message ++ 0x80 :: (List.replicate (zeroCount blockSize fieldSize message.length) 0 ++
    encode fieldSize (8 * message.length))

/-- The blocks of a padded message, one after the other. -/
def hashBlocks {α : Type} (blockSize : ℕ) (compress : α → List UInt8 → α) (initial : α)
    (padded : List UInt8) : α := (List.range (padded.length / blockSize)).foldl
    (fun state i => compress state (part blockSize padded i)) initial

theorem zeroCount_isLeast {blockSize : ℕ} (h : 0 < blockSize) (fieldSize length : ℕ) :
    IsLeast {k | blockSize ∣ length + 1 + k + fieldSize}
      (zeroCount blockSize fieldSize length) := by
  have hmod := Nat.mod_lt (length + 1 + fieldSize) h
  have hdiv := Nat.div_add_mod (length + 1 + fieldSize) blockSize
  have hcnt : zeroCount blockSize fieldSize length < blockSize := Nat.mod_lt _ h
  refine ⟨?_, fun k hk => ?_⟩
  · change blockSize ∣ length + 1 + zeroCount blockSize fieldSize length + fieldSize
    rw [zeroCount]
    generalize (length + 1 + fieldSize) % blockSize = r at *
    generalize hq : (length + 1 + fieldSize) / blockSize = q at *
    rcases Nat.eq_zero_or_pos r with rfl | hr
    · rw [Nat.sub_zero, Nat.mod_self]
      exact ⟨q, by omega⟩
    · rw [Nat.mod_eq_of_lt (by omega)]
      exact ⟨q + 1, by rw [Nat.mul_succ]; omega⟩
  · obtain ⟨m, hm⟩ : blockSize ∣ length + 1 + k + fieldSize := hk
    by_contra hlt
    rw [zeroCount] at hlt
    generalize hr : (length + 1 + fieldSize) % blockSize = r at *
    have hk : r + k < blockSize := by
      rcases Nat.eq_zero_or_pos r with rfl | hpos
      · rw [Nat.sub_zero, Nat.mod_self] at hlt
        omega
      · rw [Nat.mod_eq_of_lt (by omega)] at hlt
        omega
    have hrem : (length + 1 + k + fieldSize) % blockSize = r + k := by
      rw [show length + 1 + k + fieldSize = length + 1 + fieldSize + k by omega, ← Nat.mod_add_mod,
        hr, Nat.mod_eq_of_lt hk]
    rw [hm, Nat.mul_mod_right] at hrem
    rcases Nat.eq_zero_or_pos r with rfl | hpos
    · rw [Nat.sub_zero, Nat.mod_self] at hlt
      omega
    · omega

/-! ### The functions of FIPS 180-4 -/

section Words

variable {w : ℕ}

/-- A word of a block, the highest byte first. -/
def blockWord (w : ℕ) (block : List UInt8) (t : ℕ) : BitVec w :=
  BitVec.ofNat w (ofBigEndian (part (w / 8) block t))

/-- The bytes of words, the highest first. -/
def wordBytes (words : List (BitVec w)) : List UInt8 :=
  words.flatMap fun word => bigEndian (w / 8) word.toNat

def ch (x y z : BitVec w) : BitVec w := (x &&& y) ^^^ (~~~x &&& z)

def parity (x y z : BitVec w) : BitVec w := x ^^^ y ^^^ z

def maj (x y z : BitVec w) : BitVec w := (x &&& y) ^^^ (x &&& z) ^^^ (y &&& z)

/-- The eight working variables of SHA-256 and SHA-512. -/
structure Working (w : ℕ) where
  a : BitVec w
  b : BitVec w
  c : BitVec w
  d : BitVec w
  e : BitVec w
  f : BitVec w
  g : BitVec w
  h : BitVec w

/-- What SHA-256 and SHA-512 differ in. -/
structure Sha2 (w : ℕ) where
  rounds : ℕ
  bigSigma0 : BitVec w → BitVec w
  bigSigma1 : BitVec w → BitVec w
  sigma0 : BitVec w → BitVec w
  sigma1 : BitVec w → BitVec w
  constants : List (BitVec w)
  initial : Working w

namespace Sha2

variable (S : Sha2 w)

def schedule (block : List UInt8) (t : ℕ) : BitVec w :=
  if t < 16 then blockWord w block t
  else S.sigma1 (schedule block (t - 2)) + schedule block (t - 7) +
    S.sigma0 (schedule block (t - 15)) + schedule block (t - 16)
termination_by t

def round (block : List UInt8) (s : Working w) (t : ℕ) : Working w :=
  let t1 := s.h + S.bigSigma1 s.e + ch s.e s.f s.g + S.constants.getD t 0 + S.schedule block t
  let t2 := S.bigSigma0 s.a + maj s.a s.b s.c
  { a := t1 + t2, b := s.a, c := s.b, d := s.c, e := s.d + t1, f := s.e, g := s.f, h := s.g }

/-- The hash value after a block. -/
def compress (H : Working w) (block : List UInt8) : Working w :=
  let s := (List.range S.rounds).foldl (S.round block) H
  { a := s.a + H.a, b := s.b + H.b, c := s.c + H.c, d := s.d + H.d,
    e := s.e + H.e, f := s.f + H.f, g := s.g + H.g, h := s.h + H.h }

/-- The digest, with blocks of sixteen words and a length of two words. -/
def digest (message : List UInt8) : List UInt8 :=
  let H := hashBlocks (2 * w) S.compress S.initial (pad (2 * w) (w / 4) bigEndian message)
  wordBytes [H.a, H.b, H.c, H.d, H.e, H.f, H.g, H.h]

end Sha2

end Words

def sha256Constants : List (BitVec 32) :=
  [0x428a2f98, 0x71374491, 0xb5c0fbcf, 0xe9b5dba5, 0x3956c25b, 0x59f111f1, 0x923f82a4, 0xab1c5ed5,
   0xd807aa98, 0x12835b01, 0x243185be, 0x550c7dc3, 0x72be5d74, 0x80deb1fe, 0x9bdc06a7, 0xc19bf174,
   0xe49b69c1, 0xefbe4786, 0x0fc19dc6, 0x240ca1cc, 0x2de92c6f, 0x4a7484aa, 0x5cb0a9dc, 0x76f988da,
   0x983e5152, 0xa831c66d, 0xb00327c8, 0xbf597fc7, 0xc6e00bf3, 0xd5a79147, 0x06ca6351, 0x14292967,
   0x27b70a85, 0x2e1b2138, 0x4d2c6dfc, 0x53380d13, 0x650a7354, 0x766a0abb, 0x81c2c92e, 0x92722c85,
   0xa2bfe8a1, 0xa81a664b, 0xc24b8b70, 0xc76c51a3, 0xd192e819, 0xd6990624, 0xf40e3585, 0x106aa070,
   0x19a4c116, 0x1e376c08, 0x2748774c, 0x34b0bcb5, 0x391c0cb3, 0x4ed8aa4a, 0x5b9cca4f, 0x682e6ff3,
   0x748f82ee, 0x78a5636f, 0x84c87814, 0x8cc70208, 0x90befffa, 0xa4506ceb, 0xbef9a3f7, 0xc67178f2]

def sha256Parameters : Sha2 32 where
  rounds := 64
  bigSigma0 x := x.rotateRight 2 ^^^ x.rotateRight 13 ^^^ x.rotateRight 22
  bigSigma1 x := x.rotateRight 6 ^^^ x.rotateRight 11 ^^^ x.rotateRight 25
  sigma0 x := x.rotateRight 7 ^^^ x.rotateRight 18 ^^^ x >>> 3
  sigma1 x := x.rotateRight 17 ^^^ x.rotateRight 19 ^^^ x >>> 10
  constants := sha256Constants
  initial := ⟨0x6a09e667, 0xbb67ae85, 0x3c6ef372, 0xa54ff53a,
    0x510e527f, 0x9b05688c, 0x1f83d9ab, 0x5be0cd19⟩

def sha256 (message : List UInt8) : List UInt8 := sha256Parameters.digest message

def sha512Constants : List (BitVec 64) :=
  [0x428a2f98d728ae22, 0x7137449123ef65cd, 0xb5c0fbcfec4d3b2f, 0xe9b5dba58189dbbc,
   0x3956c25bf348b538, 0x59f111f1b605d019, 0x923f82a4af194f9b, 0xab1c5ed5da6d8118,
   0xd807aa98a3030242, 0x12835b0145706fbe, 0x243185be4ee4b28c, 0x550c7dc3d5ffb4e2,
   0x72be5d74f27b896f, 0x80deb1fe3b1696b1, 0x9bdc06a725c71235, 0xc19bf174cf692694,
   0xe49b69c19ef14ad2, 0xefbe4786384f25e3, 0x0fc19dc68b8cd5b5, 0x240ca1cc77ac9c65,
   0x2de92c6f592b0275, 0x4a7484aa6ea6e483, 0x5cb0a9dcbd41fbd4, 0x76f988da831153b5,
   0x983e5152ee66dfab, 0xa831c66d2db43210, 0xb00327c898fb213f, 0xbf597fc7beef0ee4,
   0xc6e00bf33da88fc2, 0xd5a79147930aa725, 0x06ca6351e003826f, 0x142929670a0e6e70,
   0x27b70a8546d22ffc, 0x2e1b21385c26c926, 0x4d2c6dfc5ac42aed, 0x53380d139d95b3df,
   0x650a73548baf63de, 0x766a0abb3c77b2a8, 0x81c2c92e47edaee6, 0x92722c851482353b,
   0xa2bfe8a14cf10364, 0xa81a664bbc423001, 0xc24b8b70d0f89791, 0xc76c51a30654be30,
   0xd192e819d6ef5218, 0xd69906245565a910, 0xf40e35855771202a, 0x106aa07032bbd1b8,
   0x19a4c116b8d2d0c8, 0x1e376c085141ab53, 0x2748774cdf8eeb99, 0x34b0bcb5e19b48a8,
   0x391c0cb3c5c95a63, 0x4ed8aa4ae3418acb, 0x5b9cca4f7763e373, 0x682e6ff3d6b2b8a3,
   0x748f82ee5defb2fc, 0x78a5636f43172f60, 0x84c87814a1f0ab72, 0x8cc702081a6439ec,
   0x90befffa23631e28, 0xa4506cebde82bde9, 0xbef9a3f7b2c67915, 0xc67178f2e372532b,
   0xca273eceea26619c, 0xd186b8c721c0c207, 0xeada7dd6cde0eb1e, 0xf57d4f7fee6ed178,
   0x06f067aa72176fba, 0x0a637dc5a2c898a6, 0x113f9804bef90dae, 0x1b710b35131c471b,
   0x28db77f523047d84, 0x32caab7b40c72493, 0x3c9ebe0a15c9bebc, 0x431d67c49c100d4c,
   0x4cc5d4becb3e42b6, 0x597f299cfc657e2a, 0x5fcb6fab3ad6faec, 0x6c44198c4a475817]

def sha512Parameters : Sha2 64 where
  rounds := 80
  bigSigma0 x := x.rotateRight 28 ^^^ x.rotateRight 34 ^^^ x.rotateRight 39
  bigSigma1 x := x.rotateRight 14 ^^^ x.rotateRight 18 ^^^ x.rotateRight 41
  sigma0 x := x.rotateRight 1 ^^^ x.rotateRight 8 ^^^ x >>> 7
  sigma1 x := x.rotateRight 19 ^^^ x.rotateRight 61 ^^^ x >>> 6
  constants := sha512Constants
  initial := ⟨0x6a09e667f3bcc908, 0xbb67ae8584caa73b, 0x3c6ef372fe94f82b, 0xa54ff53a5f1d36f1,
    0x510e527fade682d1, 0x9b05688c2b3e6c1f, 0x1f83d9abfb41bd6b, 0x5be0cd19137e2179⟩

def sha512 (message : List UInt8) : List UInt8 := sha512Parameters.digest message

/-- The first eighty primes. -/
def primes : List ℕ := [2, 3, 5, 7, 11, 13, 17, 19, 23, 29, 31, 37, 41, 43, 47, 53,
   59, 61, 67, 71, 73, 79, 83, 89, 97, 101, 103, 107, 109, 113, 127, 131,
   137, 139, 149, 151, 157, 163, 167, 173, 179, 181, 191, 193, 197, 199, 211, 223,
   227, 229, 233, 239, 241, 251, 257, 263, 269, 271, 277, 281, 283, 293, 307, 311,
   313, 317, 331, 337, 347, 349, 353, 359, 367, 373, 379, 383, 389, 397, 401, 409]

/-- The first bits of the fractional part of a root of `p`; `whole` is the integer part of the
root. -/
def IsRootFraction (degree bits p fraction : ℕ) : Prop :=
  ∃ whole, (whole * 2 ^ bits + fraction) ^ degree ≤ p * 2 ^ (degree * bits) ∧
    p * 2 ^ (degree * bits) < (whole * 2 ^ bits + fraction + 1) ^ degree ∧ fraction < 2 ^ bits

theorem sha256Constants_isCubeRoot : ∀ entry ∈ primes.zip sha256Constants,
    IsRootFraction 3 32 entry.1 entry.2.toNat := by
  have hchk : ∀ entry ∈ primes.zip sha256Constants, ∃ whole ∈ List.range 8,
      (whole * 2 ^ 32 + entry.2.toNat) ^ 3 ≤ entry.1 * 2 ^ (3 * 32) ∧
        entry.1 * 2 ^ (3 * 32) < (whole * 2 ^ 32 + entry.2.toNat + 1) ^ 3 := by
    decide +kernel
  intro entry hent
  obtain ⟨whole, -, hle, hlt⟩ := hchk entry hent
  exact ⟨whole, hle, hlt, entry.2.isLt⟩

theorem sha512Constants_isCubeRoot : ∀ entry ∈ primes.zip sha512Constants,
    IsRootFraction 3 64 entry.1 entry.2.toNat := by
  have hchk : ∀ entry ∈ primes.zip sha512Constants, ∃ whole ∈ List.range 8,
      (whole * 2 ^ 64 + entry.2.toNat) ^ 3 ≤ entry.1 * 2 ^ (3 * 64) ∧
        entry.1 * 2 ^ (3 * 64) < (whole * 2 ^ 64 + entry.2.toNat + 1) ^ 3 := by
    decide +kernel
  intro entry hent
  obtain ⟨whole, -, hle, hlt⟩ := hchk entry hent
  exact ⟨whole, hle, hlt, entry.2.isLt⟩

/-! ### SHA-1 -/

/-- The five working variables of SHA-1. -/
structure Sha1State where
  a : BitVec 32
  b : BitVec 32
  c : BitVec 32
  d : BitVec 32
  e : BitVec 32

def sha1Schedule (block : List UInt8) (t : ℕ) : BitVec 32 :=
  if t < 16 then blockWord 32 block t
  else (sha1Schedule block (t - 3) ^^^ sha1Schedule block (t - 8) ^^^
    sha1Schedule block (t - 14) ^^^ sha1Schedule block (t - 16)).rotateLeft 1
termination_by t

def sha1Function (t : ℕ) : BitVec 32 → BitVec 32 → BitVec 32 → BitVec 32 :=
  if t < 20 then ch else if t < 40 then parity else if t < 60 then maj else parity

def sha1Constant (t : ℕ) : BitVec 32 :=
  if t < 20 then 0x5a827999 else if t < 40 then 0x6ed9eba1
  else if t < 60 then 0x8f1bbcdc else 0xca62c1d6

def sha1Round (block : List UInt8) (s : Sha1State) (t : ℕ) : Sha1State where
  a := s.a.rotateLeft 5 + sha1Function t s.b s.c s.d + s.e + sha1Constant t + sha1Schedule block t
  b := s.a
  c := s.b.rotateLeft 30
  d := s.c
  e := s.d

def sha1Compress (H : Sha1State) (block : List UInt8) : Sha1State :=
  let s := (List.range 80).foldl (sha1Round block) H
  ⟨s.a + H.a, s.b + H.b, s.c + H.c, s.d + H.d, s.e + H.e⟩

def sha1 (message : List UInt8) : List UInt8 :=
  let H := hashBlocks 64 sha1Compress
    ⟨0x67452301, 0xefcdab89, 0x98badcfe, 0x10325476, 0xc3d2e1f0⟩ (pad 64 8 bigEndian message)
  wordBytes [H.a, H.b, H.c, H.d, H.e]

/-! ### MD5 -/

/-- The table of RFC 1321. -/
def md5Table : List (BitVec 32) :=
  [0xd76aa478, 0xe8c7b756, 0x242070db, 0xc1bdceee, 0xf57c0faf, 0x4787c62a, 0xa8304613, 0xfd469501,
   0x698098d8, 0x8b44f7af, 0xffff5bb1, 0x895cd7be, 0x6b901122, 0xfd987193, 0xa679438e, 0x49b40821,
   0xf61e2562, 0xc040b340, 0x265e5a51, 0xe9b6c7aa, 0xd62f105d, 0x02441453, 0xd8a1e681, 0xe7d3fbc8,
   0x21e1cde6, 0xc33707d6, 0xf4d50d87, 0x455a14ed, 0xa9e3e905, 0xfcefa3f8, 0x676f02d9, 0x8d2a4c8a,
   0xfffa3942, 0x8771f681, 0x6d9d6122, 0xfde5380c, 0xa4beea44, 0x4bdecfa9, 0xf6bb4b60, 0xbebfbc70,
   0x289b7ec6, 0xeaa127fa, 0xd4ef3085, 0x04881d05, 0xd9d4d039, 0xe6db99e5, 0x1fa27cf8, 0xc4ac5665,
   0xf4292244, 0x432aff97, 0xab9423a7, 0xfc93a039, 0x655b59c3, 0x8f0ccc92, 0xffeff47d, 0x85845dd1,
   0x6fa87e4f, 0xfe2ce6e0, 0xa3014314, 0x4e0811a1, 0xf7537e82, 0xbd3af235, 0x2ad7d2bb, 0xeb86d391]

/-- The functions of the four rounds. -/
def md5Function : ℕ → BitVec 32 → BitVec 32 → BitVec 32 → BitVec 32
  | 0, x, y, z => x &&& y ||| ~~~x &&& z
  | 1, x, y, z => x &&& z ||| y &&& ~~~z
  | 2, x, y, z => x ^^^ y ^^^ z
  | _, x, y, z => y ^^^ (x ||| ~~~z)

/-- The words that the operations of the four rounds take. -/
def md5Words : List ℕ := [0, 1, 2, 3, 4, 5, 6, 7, 8, 9, 10, 11, 12, 13, 14, 15,
   1, 6, 11, 0, 5, 10, 15, 4, 9, 14, 3, 8, 13, 2, 7, 12,
   5, 8, 11, 14, 1, 4, 7, 10, 13, 0, 3, 6, 9, 12, 15, 2,
   0, 7, 14, 5, 12, 3, 10, 1, 8, 15, 6, 13, 4, 11, 2, 9]

/-- The shifts of the four rounds, which repeat after four operations. -/
def md5Shifts : List (List ℕ) := [[7, 12, 17, 22], [5, 9, 14, 20], [4, 11, 16, 23], [6, 10, 15, 21]]

instance neZero_four : NeZero 4 := inferInstance

/-- The registers A, B, C and D. -/
abbrev Md5State := Fin 4 → BitVec 32

/-- The operations go through the registers from A on downwards: `[ABCD k s i]` is followed by
`[DABC k s i]`, `[CDAB k s i]` and `[BCDA k s i]`. The first register of an operation is set. -/
def md5Operation (block : List UInt8) (r : Md5State) (i : ℕ) : Md5State :=
  let register : Fin 4 → Fin 4 := fun j => j - Fin.ofNat 4 i
  let a := r (register 0)
  let b := r (register 1)
  let c := r (register 2)
  let d := r (register 3)
  let word := BitVec.ofNat 32 (ofLittleEndian (part 4 block (md5Words.getD i 0)))
  Function.update r (register 0) (b + (a + md5Function (i / 16) b c d + word +
    md5Table.getD i 0).rotateLeft ((md5Shifts.getD (i / 16) []).getD (i % 4) 0))

def md5Compress (r : Md5State) (block : List UInt8) : Md5State :=
  fun j => (List.range 64).foldl (md5Operation block) r j + r j

def md5Initial : Md5State := ![0x67452301, 0xefcdab89, 0x98badcfe, 0x10325476]

def md5 (message : List UInt8) : List UInt8 :=
  let r := hashBlocks 64 md5Compress md5Initial (pad 64 8 littleEndian message)
  [r 0, r 1, r 2, r 3].flatMap fun word => littleEndian 4 word.toNat

/-- A digit of a number below sixteen, in lower case. -/
def lowerHexDigit (n : ℕ) : UInt8 := if n < 10 then n.toUInt8 + 48 else n.toUInt8 + 87

def hexText (digest : List UInt8) : List UInt8 :=
  digest.flatMap fun c => [lowerHexDigit (c.toNat / 16), lowerHexDigit (c.toNat % 16)]

/-! ### HMAC -/

/-- The key of HMAC: hashed if it is longer than a block, and filled up with zeros. -/
def hmacKey (hash : List UInt8 → List UInt8) (blockSize : ℕ) (key : List UInt8) : List UInt8 :=
  let key := if blockSize < key.length then hash key else key
  key ++ List.replicate (blockSize - key.length) 0

def hmac (hash : List UInt8 → List UInt8) (blockSize : ℕ) (key message : List UInt8) : List UInt8 :=
  let key := hmacKey hash blockSize key
  hash (key.map (· ^^^ 0x5c) ++ hash (key.map (· ^^^ 0x36) ++ message))

end Grayscale.HashStandards
