import Grayscale.Library.HashStandards
import Grayscale.Util.Bytes

/-!
# Hashes

The hash functions of `stdlib/crypto.c`: the padded message in its buffer, the compression of its
blocks with the scalar loops, and the keyed hash. `none` stands for a write behind the end of a
buffer. Words are bit vectors of their width.
-/

namespace Grayscale.Crypto

open HashStandards (Working Sha1State)

/-! ### Buffers -/

/-- Bytes that are written into a buffer: `memcpy`, `memset` or one assignment. -/
def store (buffer : Text) (start : ℕ) (bytes : Text) : Option Text :=
  if start + bytes.length ≤ buffer.length then
    some (buffer.take start ++ bytes ++ buffer.drop (start + bytes.length))
  else none

def paddedLength (blockSize fieldSize length : ℕ) : ℕ :=
  ((length + fieldSize) / blockSize + 1) * blockSize

/-- The loop that writes the length in bits, as `uint64_t`, from the last byte on. -/
def storeLength (buffer : Text) (padded bits : ℕ) : Option Text := (List.range 8).foldlM
    (fun buffer i => store buffer (padded - 1 - i) [(bits % 2 ^ 64 / 256 ^ i).toUInt8]) buffer

/-- `message_bytes` of SHA-1, SHA-256 and SHA-512. -/
def paddedMessage (blockSize fieldSize : ℕ) (data : Text) : Option Text :=
  let padded := paddedLength blockSize fieldSize data.length
  (store (List.replicate padded 0) 0 data).bind fun buffer =>
    (store buffer data.length [0x80]).bind fun buffer =>
      (store buffer (data.length + 1) (List.replicate (padded - data.length - 1) 0)).bind
        fun buffer => storeLength buffer padded (data.length * 8)

/-- `message_bytes` of MD5, whose length is copied as the host has it, the lowest byte first. -/
def paddedMessageMd5 (data : Text) : Option Text :=
  let padded := paddedLength 64 8 data.length
  (store (List.replicate padded 0) 0 data).bind fun buffer =>
    (store buffer data.length [0x80]).bind fun buffer =>
      (store buffer (data.length + 1) (List.replicate (padded - data.length - 9) 0)).bind
        fun buffer => store buffer (padded - 8)
          (HashStandards.littleEndian 8 (data.length * 8 % 2 ^ 64))

def byteWord (w : ℕ) (message : Text) (i : ℕ) : BitVec w := BitVec.ofNat w (byteAt message i).toNat

/-- Four bytes, the highest first. -/
def loadBigEndian32 (message : Text) (i : ℕ) : BitVec 32 :=
  byteWord 32 message i <<< 24 ||| byteWord 32 message (i + 1) <<< 16 |||
    byteWord 32 message (i + 2) <<< 8 ||| byteWord 32 message (i + 3)

/-- The loop over eight bytes, the highest first. -/
def loadBigEndian64 (message : Text) (i : ℕ) : BitVec 64 :=
  (List.range 8).foldl (fun word b => word <<< 8 ||| byteWord 64 message (i + b)) 0

/-- Four bytes as a little-endian host reads them. -/
def loadLittleEndian32 (message : Text) (i : ℕ) : BitVec 32 :=
  byteWord 32 message (i + 3) <<< 24 ||| byteWord 32 message (i + 2) <<< 16 |||
    byteWord 32 message (i + 1) <<< 8 ||| byteWord 32 message i

/-- The four bytes of a word, the highest first. -/
def storeBigEndian32 (word : BitVec 32) : Text :=
  [(word >>> 24).toNat.toUInt8, (word >>> 16).toNat.toUInt8, (word >>> 8).toNat.toUInt8,
    word.toNat.toUInt8]

/-- The loop over the eight bytes of a word, the highest first. -/
def storeBigEndian64 (word : BitVec 64) : Text :=
  (List.range 8).map fun b => (word >>> (56 - b * 8)).toNat.toUInt8

/-- A schedule: words that are appended from the ones in front of them. -/
def extendSchedule {α : Type} (f : List α → ℕ → α) (w : List α) (start count : ℕ) : List α :=
  (List.range' start count).foldl (fun w j => w ++ [f w j]) w

/-! ### SHA-256 -/

def rotr (x : BitVec 32) (n : ℕ) : BitVec 32 := x >>> n ||| x <<< (32 - n)

def ch {w : ℕ} (x y z : BitVec w) : BitVec w := x &&& y ^^^ ~~~x &&& z

def maj {w : ℕ} (x y z : BitVec w) : BitVec w := x &&& y ^^^ x &&& z ^^^ y &&& z

def ep0 (x : BitVec 32) : BitVec 32 := rotr x 2 ^^^ rotr x 13 ^^^ rotr x 22

def ep1 (x : BitVec 32) : BitVec 32 := rotr x 6 ^^^ rotr x 11 ^^^ rotr x 25

def sig0 (x : BitVec 32) : BitVec 32 := rotr x 7 ^^^ rotr x 18 ^^^ x >>> 3

def sig1 (x : BitVec 32) : BitVec 32 := rotr x 17 ^^^ rotr x 19 ^^^ x >>> 10

def sha256K : List (BitVec 32) :=
  [0x428a2f98, 0x71374491, 0xb5c0fbcf, 0xe9b5dba5, 0x3956c25b, 0x59f111f1, 0x923f82a4, 0xab1c5ed5,
   0xd807aa98, 0x12835b01, 0x243185be, 0x550c7dc3, 0x72be5d74, 0x80deb1fe, 0x9bdc06a7, 0xc19bf174,
   0xe49b69c1, 0xefbe4786, 0x0fc19dc6, 0x240ca1cc, 0x2de92c6f, 0x4a7484aa, 0x5cb0a9dc, 0x76f988da,
   0x983e5152, 0xa831c66d, 0xb00327c8, 0xbf597fc7, 0xc6e00bf3, 0xd5a79147, 0x06ca6351, 0x14292967,
   0x27b70a85, 0x2e1b2138, 0x4d2c6dfc, 0x53380d13, 0x650a7354, 0x766a0abb, 0x81c2c92e, 0x92722c85,
   0xa2bfe8a1, 0xa81a664b, 0xc24b8b70, 0xc76c51a3, 0xd192e819, 0xd6990624, 0xf40e3585, 0x106aa070,
   0x19a4c116, 0x1e376c08, 0x2748774c, 0x34b0bcb5, 0x391c0cb3, 0x4ed8aa4a, 0x5b9cca4f, 0x682e6ff3,
   0x748f82ee, 0x78a5636f, 0x84c87814, 0x8cc70208, 0x90befffa, 0xa4506ceb, 0xbef9a3f7, 0xc67178f2]

def sha256Schedule (message : Text) (i : ℕ) : List (BitVec 32) :=
  extendSchedule (fun w j => sig1 (w.getD (j - 2) 0) + w.getD (j - 7) 0 + sig0 (w.getD (j - 15) 0) +
    w.getD (j - 16) 0) ((List.range 16).map fun j => loadBigEndian32 message (i + j * 4)) 16 48

def sha256Round (w : List (BitVec 32)) (s : Working 32) (j : ℕ) : Working 32 :=
  let t1 := s.h + ep1 s.e + ch s.e s.f s.g + sha256K.getD j 0 + w.getD j 0
  let t2 := ep0 s.a + maj s.a s.b s.c
  { h := s.g, g := s.f, f := s.e, e := s.d + t1, d := s.c, c := s.b, b := s.a, a := t1 + t2 }

/-- The state plus the variables of a block. -/
def addWorking {w : ℕ} (h s : Working w) : Working w :=
  ⟨h.a + s.a, h.b + s.b, h.c + s.c, h.d + s.d, h.e + s.e, h.f + s.f, h.g + s.g, h.h + s.h⟩

def sha256CompressScalar (h : Working 32) (message : Text) (nblocks : ℕ) : Working 32 :=
  (List.range nblocks).foldl
    (fun h k => addWorking h
      ((List.range 64).foldl (sha256Round (sha256Schedule message (k * 64))) h))
    h

/-- `sha256_raw` with the scalar compression. -/
def sha256Raw (data : Text) : Option Text := (paddedMessage 64 8 data).map fun message =>
    let h := sha256CompressScalar ⟨0x6a09e667, 0xbb67ae85, 0x3c6ef372, 0xa54ff53a,
      0x510e527f, 0x9b05688c, 0x1f83d9ab, 0x5be0cd19⟩ message (message.length / 64)
    [h.a, h.b, h.c, h.d, h.e, h.f, h.g, h.h].flatMap storeBigEndian32

/-! ### SHA-1 -/

def sha1Schedule (message : Text) (offset : ℕ) : List (BitVec 32) := extendSchedule (fun w j =>
    let v := w.getD (j - 3) 0 ^^^ w.getD (j - 8) 0 ^^^ w.getD (j - 14) 0 ^^^ w.getD (j - 16) 0
    v <<< 1 ||| v >>> 31)
    ((List.range 16).map fun j => loadBigEndian32 message (offset + j * 4)) 16 64

def sha1Round (w : List (BitVec 32)) (s : Sha1State) (j : ℕ) : Sha1State :=
  let (f, k) :=
    if j < 20 then (s.b &&& s.c ||| ~~~s.b &&& s.d, (0x5A827999 : BitVec 32))
    else if j < 40 then (s.b ^^^ s.c ^^^ s.d, 0x6ED9EBA1)
    else if j < 60 then (s.b &&& s.c ||| s.b &&& s.d ||| s.c &&& s.d, 0x8F1BBCDC)
    else (s.b ^^^ s.c ^^^ s.d, 0xCA62C1D6)
  let t := (s.a <<< 5 ||| s.a >>> 27) + f + s.e + k + w.getD j 0
  { e := s.d, d := s.c, c := s.b <<< 30 ||| s.b >>> 2, b := s.a, a := t }

def sha1Block (message : Text) (h : Sha1State) (k : ℕ) : Sha1State :=
  let s := (List.range 80).foldl (sha1Round (sha1Schedule message (k * 64))) h
  ⟨h.a + s.a, h.b + s.b, h.c + s.c, h.d + s.d, h.e + s.e⟩

def sha1Raw (data : Text) : Option Text := (paddedMessage 64 8 data).map fun message =>
    let h := (List.range (message.length / 64)).foldl (sha1Block message)
      ⟨0x67452301, 0xEFCDAB89, 0x98BADCFE, 0x10325476, 0xC3D2E1F0⟩
    [h.a, h.b, h.c, h.d, h.e].flatMap storeBigEndian32

/-! ### SHA-512 -/

def sha512K : List (BitVec 64) :=
  [0x428a2f98d728ae22, 0x7137449123ef65cd, 0xb5c0fbcfec4d3b2f, 0xe9b5dba58189dbbc,
   0x3956c25bf348b538, 0x59f111f1b605d019, 0x923f82a4af194f9b, 0xab1c5ed5da6d8118,
   0xd807aa98a3030242, 0x12835b0145706fbe, 0x243185be4ee4b28c, 0x550c7dc3d5ffb4e2,
   0x72be5d74f27b896f, 0x80deb1fe3b1696b1, 0x9bdc06a725c71235, 0xc19bf174cf692694,
   0xe49b69c19ef14ad2, 0xefbe4786384f25e3, 0x0fc19dc68b8cd5b5, 0x240ca1cc77ac9c65,
   0x2de92c6f592b0275, 0x4a7484aa6ea6e483, 0x5cb0a9dcbd41fbd4, 0x76f988da831153b5,
   0x983e5152ee66dfab, 0xa831c66d2db43210, 0xb00327c898fb213f, 0xbf597fc7beef0ee4,
   0xc6e00bf33da88fc2, 0xd5a79147930aa725, 0x06ca6351e003826f, 0x142929670a0e6e70,
   0x27b70a8546d22ffc, 0x2e1b21385c26c926, 0x4d2c6dfc5ac42aed, 0x53380d139d95b3df,
   0x650a73548baf63de, 0x766a0abb3c77b2a8, 0x81c2c92e47edaee6, 0x92722c851482353b,
   0xa2bfe8a14cf10364, 0xa81a664bbc423001, 0xc24b8b70d0f89791, 0xc76c51a30654be30,
   0xd192e819d6ef5218, 0xd69906245565a910, 0xf40e35855771202a, 0x106aa07032bbd1b8,
   0x19a4c116b8d2d0c8, 0x1e376c085141ab53, 0x2748774cdf8eeb99, 0x34b0bcb5e19b48a8,
   0x391c0cb3c5c95a63, 0x4ed8aa4ae3418acb, 0x5b9cca4f7763e373, 0x682e6ff3d6b2b8a3,
   0x748f82ee5defb2fc, 0x78a5636f43172f60, 0x84c87814a1f0ab72, 0x8cc702081a6439ec,
   0x90befffa23631e28, 0xa4506cebde82bde9, 0xbef9a3f7b2c67915, 0xc67178f2e372532b,
   0xca273eceea26619c, 0xd186b8c721c0c207, 0xeada7dd6cde0eb1e, 0xf57d4f7fee6ed178,
   0x06f067aa72176fba, 0x0a637dc5a2c898a6, 0x113f9804bef90dae, 0x1b710b35131c471b,
   0x28db77f523047d84, 0x32caab7b40c72493, 0x3c9ebe0a15c9bebc, 0x431d67c49c100d4c,
   0x4cc5d4becb3e42b6, 0x597f299cfc657e2a, 0x5fcb6fab3ad6faec, 0x6c44198c4a475817]

def rotr64 (x : BitVec 64) (n : ℕ) : BitVec 64 := x >>> n ||| x <<< (64 - n)

def sha512Schedule (message : Text) (offset : ℕ) : List (BitVec 64) := extendSchedule (fun w j =>
    let s0 := rotr64 (w.getD (j - 15) 0) 1 ^^^ rotr64 (w.getD (j - 15) 0) 8 ^^^
      w.getD (j - 15) 0 >>> 7
    let s1 := rotr64 (w.getD (j - 2) 0) 19 ^^^ rotr64 (w.getD (j - 2) 0) 61 ^^^
      w.getD (j - 2) 0 >>> 6
    w.getD (j - 16) 0 + s0 + w.getD (j - 7) 0 + s1)
    ((List.range 16).map fun j => loadBigEndian64 message (offset + j * 8)) 16 64

def sha512Round (w : List (BitVec 64)) (s : Working 64) (j : ℕ) : Working 64 :=
  let bigS1 := rotr64 s.e 14 ^^^ rotr64 s.e 18 ^^^ rotr64 s.e 41
  let ch := s.e &&& s.f ^^^ ~~~s.e &&& s.g
  let t1 := s.h + bigS1 + ch + sha512K.getD j 0 + w.getD j 0
  let bigS0 := rotr64 s.a 28 ^^^ rotr64 s.a 34 ^^^ rotr64 s.a 39
  let maj := s.a &&& s.b ^^^ s.a &&& s.c ^^^ s.b &&& s.c
  let t2 := bigS0 + maj
  { h := s.g, g := s.f, f := s.e, e := s.d + t1, d := s.c, c := s.b, b := s.a, a := t1 + t2 }

def sha512Raw (data : Text) : Option Text := (paddedMessage 128 16 data).map fun message =>
    let h := (List.range (message.length / 128)).foldl
      (fun h k => addWorking h
        ((List.range 80).foldl (sha512Round (sha512Schedule message (k * 128))) h))
      ⟨0x6a09e667f3bcc908, 0xbb67ae8584caa73b, 0x3c6ef372fe94f82b, 0xa54ff53a5f1d36f1,
        0x510e527fade682d1, 0x9b05688c2b3e6c1f, 0x1f83d9abfb41bd6b, 0x5be0cd19137e2179⟩
    [h.a, h.b, h.c, h.d, h.e, h.f, h.g, h.h].flatMap storeBigEndian64

/-! ### HMAC -/

/-- `hmac_raw`, with a block of 64 bytes for the key and for the digest of the message. -/
def hmacRaw (hash : Text → Option Text) (digestLength : ℕ) (key data : Text) : Option Text :=
  (if 64 < key.length then
      (hash key).bind fun digest => store (List.replicate 64 0) 0 digest
    else store (List.replicate 64 0) 0 key).bind fun keyBlock =>
  (hash (keyBlock.map (· ^^^ 0x36) ++ data)).bind fun inner =>
  (store (List.replicate 64 0) 0 inner).bind fun innerBlock =>
  (store (List.replicate 128 0) 0 (keyBlock.map (· ^^^ 0x5c))).bind fun outer =>
  (store outer 64 (innerBlock.take digestLength)).bind fun outer =>
  hash (outer.take (64 + digestLength))

/-! ### MD5 -/

structure Md5State where
  a : BitVec 32
  b : BitVec 32
  c : BitVec 32
  d : BitVec 32

def md5S : List ℕ := [7, 12, 17, 22, 7, 12, 17, 22, 7, 12, 17, 22, 7, 12, 17, 22,
   5, 9, 14, 20, 5, 9, 14, 20, 5, 9, 14, 20, 5, 9, 14, 20,
   4, 11, 16, 23, 4, 11, 16, 23, 4, 11, 16, 23, 4, 11, 16, 23,
   6, 10, 15, 21, 6, 10, 15, 21, 6, 10, 15, 21, 6, 10, 15, 21]

def md5K : List (BitVec 32) :=
  [0xd76aa478, 0xe8c7b756, 0x242070db, 0xc1bdceee, 0xf57c0faf, 0x4787c62a, 0xa8304613, 0xfd469501,
   0x698098d8, 0x8b44f7af, 0xffff5bb1, 0x895cd7be, 0x6b901122, 0xfd987193, 0xa679438e, 0x49b40821,
   0xf61e2562, 0xc040b340, 0x265e5a51, 0xe9b6c7aa, 0xd62f105d, 0x02441453, 0xd8a1e681, 0xe7d3fbc8,
   0x21e1cde6, 0xc33707d6, 0xf4d50d87, 0x455a14ed, 0xa9e3e905, 0xfcefa3f8, 0x676f02d9, 0x8d2a4c8a,
   0xfffa3942, 0x8771f681, 0x6d9d6122, 0xfde5380c, 0xa4beea44, 0x4bdecfa9, 0xf6bb4b60, 0xbebfbc70,
   0x289b7ec6, 0xeaa127fa, 0xd4ef3085, 0x04881d05, 0xd9d4d039, 0xe6db99e5, 0x1fa27cf8, 0xc4ac5665,
   0xf4292244, 0x432aff97, 0xab9423a7, 0xfc93a039, 0x655b59c3, 0x8f0ccc92, 0xffeff47d, 0x85845dd1,
   0x6fa87e4f, 0xfe2ce6e0, 0xa3014314, 0x4e0811a1, 0xf7537e82, 0xbd3af235, 0x2ad7d2bb, 0xeb86d391]

def rotl (x : BitVec 32) (n : ℕ) : BitVec 32 := x <<< n ||| x >>> (32 - n)

def md5Round (message : Text) (offset : ℕ) (s : Md5State) (i : ℕ) : Md5State :=
  let (f, g) :=
    if i < 16 then (s.b &&& s.c ||| ~~~s.b &&& s.d, i)
    else if i < 32 then (s.b &&& s.d ||| s.c &&& ~~~s.d, (5 * i + 1) % 16)
    else if i < 48 then (s.b ^^^ s.c ^^^ s.d, (3 * i + 5) % 16)
    else (s.c ^^^ (s.b ||| ~~~s.d), 7 * i % 16)
  { d := s.c
    c := s.b
    b := s.b + rotl (s.a + f + md5K.getD i 0 + loadLittleEndian32 message (offset + 4 * g))
      (md5S.getD i 0)
    a := s.d }

def md5Block (message : Text) (s : Md5State) (k : ℕ) : Md5State :=
  let t := (List.range 64).foldl (md5Round message (k * 64)) s
  ⟨s.a + t.a, s.b + t.b, s.c + t.c, s.d + t.d⟩

def cryptoHex (digest : Text) : Text :=
  digest.flatMap fun c => [byteAt (bytes "0123456789abcdef") (c.toNat >>> 4 &&& 0x0f),
    byteAt (bytes "0123456789abcdef") (c.toNat &&& 0x0f)]

def cryptoMd5 (data : Text) : Option Text := (paddedMessageMd5 data).map fun message =>
    let s := (List.range (message.length / 64)).foldl (md5Block message)
      ⟨0x67452301, 0xefcdab89, 0x98badcfe, 0x10325476⟩
    cryptoHex ([s.a, s.b, s.c, s.d].flatMap fun word => HashStandards.littleEndian 4 word.toNat)

end Grayscale.Crypto
