import Grayscale.Stdlib.Crypto
import Mathlib.Data.List.GetD

/-!
# The hashes are the published ones

The padded message fits its buffer and is the one of the standards, the words of a block are read
as the standards have them, and each round and each block of the loops is a round and a block of
the standards. So the digests agree, and so do the keyed hashes.
-/

namespace Grayscale.Crypto

open HashStandards List Function
open Option (bind_assoc bind_some map_some)

/-! ### Buffers -/

theorem store_segment (front old back new : Text) {start : ℕ} (hst : start = front.length)
    (hnew : new.length = old.length) :
    store (front ++ (old ++ back)) start new = some (front ++ (new ++ back)) := by
  subst hst
  rw [store, if_pos (by simp only [length_append]; omega), take_left,
    drop_append, drop_eq_nil_of_le (by omega), Nat.add_sub_cancel_left, hnew,
    drop_left, nil_append, append_assoc]

theorem replicate_split (k : ℕ) {n : ℕ} (h : k ≤ n) :
    replicate n (0 : UInt8) = replicate k 0 ++ replicate (n - k) 0 := by
  rw [← replicate_add]
  congr 1
  omega

theorem store_replicate {n : ℕ} {new : Text} (h : new.length ≤ n) :
    store (replicate n 0) 0 new = some (new ++ replicate (n - new.length) 0) := by
  rw [replicate_split _ h]
  exact store_segment [] _ _ _ rfl length_replicate.symm

theorem bigEndian_succ (k n : ℕ) :
    bigEndian (k + 1) n = (n / 256 ^ k).toUInt8 :: bigEndian k n := by
  simp [bigEndian, range_succ]

@[simp] theorem length_bigEndian (k n : ℕ) : (bigEndian k n).length = k := by simp [bigEndian]

@[simp] theorem length_littleEndian (k n : ℕ) : (littleEndian k n).length = k := by
  simp [littleEndian]

variable {k : ℕ}

theorem bigEndian_add {n : ℕ} (hn : n < 256 ^ k) (j : ℕ) :
    bigEndian (j + k) n = replicate j 0 ++ bigEndian k n := by
  induction j with
  | zero => simp
  | succ j ih =>
    have hzero : n / 256 ^ (j + k) = 0 :=
      Nat.div_eq_of_lt (hn.trans_le (Nat.pow_le_pow_right (by omega) (by omega)))
    rw [Nat.succ_add, bigEndian_succ, hzero, ih]
    rfl

theorem foldlM_storeLength (front : Text) {bits : ℕ} (hbits : bits < 2 ^ 64) (m k : ℕ)
    (hk : k ≤ m) : (List.range k).foldlM
      (fun buffer i => store buffer (front.length + m - 1 - i) [(bits % 2 ^ 64 / 256 ^ i).toUInt8])
      (front ++ replicate m 0) = some (front ++ (replicate (m - k) 0 ++ bigEndian k bits)) := by
  induction k with
  | zero => simp [bigEndian]
  | succ k ih =>
    rw [range_succ, foldlM_append, ih (by omega)]
    have hlast : replicate (m - k) (0 : UInt8) = replicate (m - (k + 1)) 0 ++ [0] := by
      rw [replicate_split (m - (k + 1)) (by omega), show m - k - (m - (k + 1)) = 1 by omega]
      rfl
    have hstore := store_segment (front ++ replicate (m - (k + 1)) 0) [0] (bigEndian k bits)
      [(bits / 256 ^ k).toUInt8]
      (show front.length + m - 1 - k = _ by
        simp only [length_append, length_replicate]; omega) rfl
    simp only [append_assoc, singleton_append] at hstore
    simp only [hlast, append_assoc, singleton_append, Option.bind_eq_bind,
      bind_some, foldlM_cons, foldlM_nil, Nat.mod_eq_of_lt hbits, hstore, bigEndian_succ]
    rfl

theorem storeLength_eq (front : Text) {bits : ℕ} (hbits : bits < 2 ^ 64) :
    storeLength (front ++ replicate 8 0) (front.length + 8) bits =
      some (front ++ bigEndian 8 bits) := by
  rw [storeLength, foldlM_storeLength front hbits 8 8 le_rfl]
  rfl

theorem paddedLength_eq {blockSize : ℕ} (hpos : 0 < blockSize) (fieldSize n : ℕ) :
    paddedLength blockSize fieldSize n = n + 1 + zeroCount blockSize fieldSize n + fieldSize := by
  have hdiv := Nat.div_add_mod (n + fieldSize) blockSize
  have hmod := Nat.mod_lt (n + fieldSize) hpos
  have hsucc : (n + 1 + fieldSize) % blockSize = ((n + fieldSize) % blockSize + 1) % blockSize := by
    rw [show n + 1 + fieldSize = n + fieldSize + 1 by omega, Nat.mod_add_mod]
  rw [paddedLength, zeroCount, hsucc, Nat.succ_mul, Nat.mul_comm]
  generalize (n + fieldSize) % blockSize = r at *
  rcases Nat.lt_or_ge (r + 1) blockSize with hlt | hge
  · rw [Nat.mod_eq_of_lt hlt, Nat.mod_eq_of_lt (by omega)]
    omega
  · rw [show r + 1 = blockSize by omega, Nat.mod_self, Nat.sub_zero, Nat.mod_self]
    omega

@[simp] theorem length_pad {encode : ℕ → ℕ → List UInt8} (h : ∀ k n, (encode k n).length = k)
    (blockSize fieldSize : ℕ) (data : Text) : (pad blockSize fieldSize encode data).length =
      data.length + 1 + zeroCount blockSize fieldSize data.length + fieldSize := by
  simp only [pad, length_append, length_cons, length_replicate, h]
  omega

variable {data : Text}

theorem store_message {n : ℕ} (h : data.length < n) :
    ((store (replicate n 0) 0 data).bind fun buffer => store buffer data.length [0x80]) =
      some (data ++ 0x80 :: replicate (n - data.length - 1) 0) := by
  rw [store_replicate (by omega), replicate_split (1) (by omega), bind_some]
  exact store_segment _ [0] _ _ rfl rfl

theorem paddedMessage_eq_pad {blockSize : ℕ} (hpos : 0 < blockSize) (j : ℕ)
    (hdata : data.length * 8 < 2 ^ 64) :
    paddedMessage blockSize (j + 8) data = some (pad blockSize (j + 8) bigEndian data) := by
  have hlen := paddedLength_eq hpos (j + 8) data.length
  rw [paddedMessage, ← bind_assoc, hlen, store_message (by omega), bind_some]
  generalize hz : zeroCount blockSize (j + 8) data.length = z
  have hclear : store (data ++ 0x80 :: replicate (data.length + 1 + z + (j + 8) -
      data.length - 1) 0) (data.length + 1) (replicate (data.length + 1 + z + (j + 8) -
      data.length - 1) 0) = some (data ++ 0x80 :: replicate (data.length + 1 + z + (j + 8) -
      data.length - 1) 0) := by
    have hstore := store_segment (data ++ [0x80])
      (replicate (data.length + 1 + z + (j + 8) - data.length - 1) 0) []
      (replicate (data.length + 1 + z + (j + 8) - data.length - 1) 0)
      (show data.length + 1 = _ by simp) (by simp)
    simpa only [append_nil, append_assoc, singleton_append] using hstore
  have hfro : data ++ 0x80 :: replicate (data.length + 1 + z + (j + 8) - data.length - 1) 0 =
      data ++ 0x80 :: replicate (z + j) 0 ++ replicate 8 0 := by
    rw [replicate_split (z + j) (by omega),
      show data.length + 1 + z + (j + 8) - data.length - 1 - (z + j) = 8 by omega]
    simp
  have hend : data.length + 1 + z + (j + 8) =
      (data ++ 0x80 :: replicate (z + j) (0 : UInt8)).length + 8 := by
    simp only [length_append, length_cons, length_replicate]
    omega
  rw [hclear, bind_some, hfro, hend, storeLength_eq _ hdata, pad, hz, Nat.mul_comm,
    bigEndian_add (by omega), replicate_add]
  simp only [append_assoc, cons_append]

theorem paddedMessageMd5_eq_pad (hdata : data.length * 8 < 2 ^ 64) :
    paddedMessageMd5 data = some (pad 64 8 littleEndian data) := by
  have hlen := paddedLength_eq (show 0 < 64 by omega) 8 data.length
  rw [paddedMessageMd5, ← bind_assoc, hlen, store_message (by omega), bind_some]
  generalize hz : zeroCount 64 8 data.length = z
  have hrest : data ++ 0x80 :: replicate (data.length + 1 + z + 8 - data.length - 1) 0 =
      data ++ [0x80] ++ (replicate z 0 ++ replicate 8 0) := by
    rw [replicate_split (z) (by omega),
      show data.length + 1 + z + 8 - data.length - 1 - z = 8 by omega]
    simp
  have hclear := store_segment (data ++ [0x80]) (replicate z 0) (replicate 8 0)
    (replicate z 0) (show data.length + 1 = _ by simp) rfl
  have hfld := store_segment (data ++ [0x80] ++ replicate z 0) (replicate 8 0) []
    (littleEndian 8 (data.length * 8))
    (show data.length + 1 + z = _ by
      simp only [length_append, length_replicate, length_singleton])
    (by simp)
  rw [hrest, show data.length + 1 + z + 8 - data.length - 9 = z by omega,
    show data.length + 1 + z + 8 - 8 = data.length + 1 + z by omega, hclear, bind_some,
    Nat.mod_eq_of_lt hdata, pad, hz, Nat.mul_comm 8]
  simpa only [append_assoc, append_nil, nil_append, cons_append] using hfld

/-! ### Words -/

variable {l : Text} {i : ℕ}

theorem take_drop_eq_map (h : i + k ≤ l.length) :
    (l.drop i).take k = (List.range k).map fun j => byteAt l (i + j) := by
  refine ext_getElem (by simp; omega) fun j hj _ => ?_
  have hin : i + j < l.length := by
    rw [length_take, length_drop] at hj
    omega
  simp only [getElem_take, getElem_drop, getElem_map, getElem_range, byteAt,
    getD_eq_getElem _ _ hin]

theorem part_part {size blockSize t : ℕ} (h : size * t + size ≤ blockSize) (l : Text) (k : ℕ) :
    part size (part blockSize l k) t = (l.drop (blockSize * k + size * t)).take size := by
  rw [part, part, drop_take, drop_drop, take_take, Nat.min_eq_left (by omega)]

theorem ofNat_push (w n : ℕ) (c : UInt8) : BitVec.ofNat w (n * 256 + c.toNat) =
    BitVec.ofNat w n <<< 8 ||| BitVec.ofNat w c.toNat := by
  have hc : c.toNat < 2 ^ 8 := c.toNat_lt
  rw [show n * 256 + c.toNat = n * 2 ^ 8 + c.toNat from rfl, ← shiftLeft_or 8 hc, BitVec.ofNat_or]
  congr 1
  apply BitVec.eq_of_toNat_eq
  simp [Nat.shiftLeft_eq, Nat.mod_mul_mod]

theorem ofNat_ofBigEndian (w : ℕ) (l : Text) : BitVec.ofNat w (ofBigEndian l) =
    l.foldl (fun (word : BitVec w) c => word <<< 8 ||| BitVec.ofNat w c.toNat) 0 := by
  have hloop : ∀ n, BitVec.ofNat w (l.foldl (fun n c => n * 256 + c.toNat) n) =
      l.foldl (fun (word : BitVec w) c => word <<< 8 ||| BitVec.ofNat w c.toNat)
        (BitVec.ofNat w n) := by
    induction l with
    | nil => intro n; rfl
    | cons c t ih =>
      intro n
      rw [foldl_cons, foldl_cons, ih, ofNat_push]
  exact hloop 0

theorem ofNat_four (a b c d : UInt8) : BitVec.ofNat 32 (ofBigEndian [a, b, c, d]) =
    BitVec.ofNat 32 a.toNat <<< 24 ||| BitVec.ofNat 32 b.toNat <<< 16 |||
      BitVec.ofNat 32 c.toNat <<< 8 ||| BitVec.ofNat 32 d.toNat := by
  rw [ofNat_ofBigEndian]
  simp only [foldl_cons, foldl_nil, BitVec.shiftLeft_or_distrib, ← BitVec.shiftLeft_add,
    BitVec.ofNat_eq_ofNat, BitVec.zero_shiftLeft, BitVec.zero_or]

theorem loadBigEndian32_eq (h : i + 4 ≤ l.length) :
    loadBigEndian32 l i = BitVec.ofNat 32 (ofBigEndian ((l.drop i).take 4)) := by
  rw [take_drop_eq_map h]
  exact (ofNat_four _ _ _ _).symm

theorem loadLittleEndian32_eq (h : i + 4 ≤ l.length) :
    loadLittleEndian32 l i = BitVec.ofNat 32 (ofLittleEndian ((l.drop i).take 4)) := by
  rw [take_drop_eq_map h]
  exact (ofNat_four _ _ _ _).symm

theorem loadBigEndian64_eq (h : i + 8 ≤ l.length) :
    loadBigEndian64 l i = BitVec.ofNat 64 (ofBigEndian ((l.drop i).take 8)) := by
  rw [take_drop_eq_map h, ofNat_ofBigEndian, foldl_map]
  rfl

theorem loadBigEndian32_block {t : ℕ} (hk : k < l.length / 64) (ht : t < 16) :
    loadBigEndian32 l (k * 64 + t * 4) = blockWord 32 (part 64 l k) t := by
  rw [loadBigEndian32_eq (by omega), blockWord, part_part (by omega), Nat.mul_comm k,
    Nat.mul_comm t]

theorem loadBigEndian64_block {t : ℕ} (hk : k < l.length / 128) (ht : t < 16) :
    loadBigEndian64 l (k * 128 + t * 8) = blockWord 64 (part 128 l k) t := by
  rw [loadBigEndian64_eq (by omega), blockWord, part_part (by omega), Nat.mul_comm k,
    Nat.mul_comm t]

theorem storeBigEndian32_eq (word : BitVec 32) :
    storeBigEndian32 word = bigEndian (32 / 8) word.toNat := by
  simp [storeBigEndian32, bigEndian, range_succ, Nat.shiftRight_eq_div_pow]

theorem storeBigEndian64_eq (word : BitVec 64) :
    storeBigEndian64 word = bigEndian (64 / 8) word.toNat := by
  simp [storeBigEndian64, bigEndian, range_succ, Nat.shiftRight_eq_div_pow]

/-! ### Schedules -/

theorem getD_map_range {α : Type} (W : ℕ → α) {i n : ℕ} (h : i < n) (d : α) :
    ((List.range n).map W).getD i d = W i := by
  rw [getD_eq_getElem _ _ (by simpa using h), getElem_map, getElem_range]

theorem extendSchedule_eq {α : Type} {f : List α → ℕ → α} {first W : ℕ → α} {start : ℕ}
    (count : ℕ) (hfst : ∀ j < start, first j = W j)
    (h : ∀ j, start ≤ j → j < start + count → f ((List.range j).map W) j = W j) :
    extendSchedule f ((List.range start).map first) start count =
      (List.range (start + count)).map W := by
  rw [map_congr_left fun j hj => hfst j (mem_range.mp hj)]
  induction count with
  | zero => rfl
  | succ count ih =>
    rw [extendSchedule, List.range'_1_concat, foldl_append]
    have hprev := ih fun j hj hlt => h j hj (by omega)
    rw [extendSchedule] at hprev
    rw [hprev, foldl_cons, foldl_nil, h _ (by omega) (by omega), ← Nat.add_assoc,
      range_succ, map_append]
    rfl

/-! ### SHA-256 -/

theorem sha256Schedule_eq (hk : k < l.length / 64) : sha256Schedule l (k * 64) =
      (List.range 64).map (sha256Parameters.schedule (part 64 l k)) := by
  refine extendSchedule_eq 48 (fun t ht => ?_) fun j hj _ => ?_
  · rw [loadBigEndian32_block hk ht, Sha2.schedule, if_pos ht]
  rw [Sha2.schedule, if_neg (by omega)]
  simp only [getD_map_range _ (show j - 2 < j by omega), getD_map_range _ (show j - 7 < j by omega),
    getD_map_range _ (show j - 15 < j by omega), getD_map_range _ (show j - 16 < j by omega)]
  rfl

variable (block : Text)

theorem sha256Round_eq (s : Working 32) {j : ℕ} (hj : j < 64) :
    sha256Round ((List.range 64).map (sha256Parameters.schedule block)) s j =
      sha256Parameters.round block s j := by
  rw [sha256Round, getD_map_range _ hj]
  rfl

theorem addWorking_eq {w : ℕ} (h s : Working w) : addWorking h s =
    ⟨s.a + h.a, s.b + h.b, s.c + h.c, s.d + h.d, s.e + h.e, s.f + h.f, s.g + h.g, s.h + h.h⟩ := by
  simp only [addWorking, BitVec.add_comm]

theorem sha256CompressScalar_eq (h : Working 32) (l : Text) :
    sha256CompressScalar h l (l.length / 64) = hashBlocks 64 sha256Parameters.compress h l := by
  refine foldl_ext _ _ h fun h k hk => ?_
  rw [mem_range] at hk
  rw [sha256Schedule_eq hk, addWorking_eq,
    foldl_ext _ _ h fun s j hj => sha256Round_eq _ s (mem_range.mp hj)]
  rfl

theorem sha256Raw_eq (hdata : data.length * 8 < 2 ^ 64) : sha256Raw data = some (sha256 data) := by
  rw [sha256Raw, paddedMessage_eq_pad (by omega) 0 hdata, map_some]
  simp only [sha256CompressScalar_eq, flatMap_congr fun word _ => storeBigEndian32_eq word]
  rfl

/-! ### SHA-512 -/

theorem sha512Schedule_eq (hk : k < l.length / 128) : sha512Schedule l (k * 128) =
      (List.range 80).map (sha512Parameters.schedule (part 128 l k)) := by
  refine extendSchedule_eq 64 (fun t ht => ?_) fun j hj _ => ?_
  · rw [loadBigEndian64_block hk ht, Sha2.schedule, if_pos ht]
  rw [Sha2.schedule, if_neg (by omega)]
  simp only [getD_map_range _ (show j - 2 < j by omega), getD_map_range _ (show j - 7 < j by omega),
    getD_map_range _ (show j - 15 < j by omega), getD_map_range _ (show j - 16 < j by omega)]
  -- The code adds the same four words in the opposite order.
  generalize sha512Parameters.schedule (part 128 l k) (j - 2) = w2
  generalize sha512Parameters.schedule (part 128 l k) (j - 7) = w7
  generalize sha512Parameters.schedule (part 128 l k) (j - 15) = w15
  generalize sha512Parameters.schedule (part 128 l k) (j - 16) = w16
  change w16 + sha512Parameters.sigma0 w15 + w7 + sha512Parameters.sigma1 w2 = _
  ac_rfl

theorem sha512Round_eq (s : Working 64) {j : ℕ} (hj : j < 80) :
    sha512Round ((List.range 80).map (sha512Parameters.schedule block)) s j =
      sha512Parameters.round block s j := by
  rw [sha512Round, getD_map_range _ hj]
  rfl

theorem sha512Raw_eq (hdata : data.length * 8 < 2 ^ 64) : sha512Raw data = some (sha512 data) := by
  have hblock : ∀ (l : Text) (h : Working 64), ∀ k ∈ List.range (l.length / 128),
      addWorking h ((List.range 80).foldl (sha512Round (sha512Schedule l (k * 128))) h) =
        sha512Parameters.compress h (part 128 l k) := by
    intro l h k hk
    rw [sha512Schedule_eq (mem_range.mp hk), addWorking_eq,
      foldl_ext _ _ h fun s j hj => sha512Round_eq _ s (mem_range.mp hj)]
    rfl
  rw [sha512Raw, paddedMessage_eq_pad (by omega) 8 hdata, map_some]
  simp only [foldl_ext _ _ _ (hblock _), flatMap_congr fun word _ => storeBigEndian64_eq word]
  rfl

/-! ### SHA-1 -/

theorem sha1Schedule_eq (hk : k < l.length / 64) :
    sha1Schedule l (k * 64) = (List.range 80).map (HashStandards.sha1Schedule (part 64 l k)) := by
  refine extendSchedule_eq 64 (fun t ht => ?_) fun j hj _ => ?_
  · rw [loadBigEndian32_block hk ht, HashStandards.sha1Schedule, if_pos ht]
  rw [HashStandards.sha1Schedule, if_neg (by omega)]
  simp only [getD_map_range _ (show j - 3 < j by omega), getD_map_range _ (show j - 8 < j by omega),
    getD_map_range _ (show j - 14 < j by omega), getD_map_range _ (show j - 16 < j by omega)]
  rfl

theorem or_eq_ch (x y z : BitVec 32) : x &&& y ||| ~~~x &&& z = HashStandards.ch x y z := by
  ext i hi
  simp only [HashStandards.ch, BitVec.getElem_or, BitVec.getElem_xor, BitVec.getElem_and,
    BitVec.getElem_not]
  cases x[i] <;> simp

theorem or_eq_maj (x y z : BitVec 32) :
    x &&& y ||| x &&& z ||| y &&& z = HashStandards.maj x y z := by
  ext i hi
  simp only [HashStandards.maj, BitVec.getElem_or, BitVec.getElem_xor, BitVec.getElem_and]
  cases x[i] <;> cases y[i] <;> cases z[i] <;> rfl

theorem sha1Round_eq (s : Sha1State) {j : ℕ} (hj : j < 80) :
    sha1Round ((List.range 80).map (HashStandards.sha1Schedule block)) s j =
      HashStandards.sha1Round block s j := by
  rw [sha1Round, HashStandards.sha1Round, getD_map_range _ hj, sha1Function, sha1Constant]
  split_ifs
  · rw [or_eq_ch]
    rfl
  · rfl
  · rw [or_eq_maj]
    rfl
  · rfl

theorem sha1Raw_eq (hdata : data.length * 8 < 2 ^ 64) : sha1Raw data = some (sha1 data) := by
  have hblock : ∀ (l : Text) (h : Sha1State), ∀ k ∈ List.range (l.length / 64),
      sha1Block l h k = sha1Compress h (part 64 l k) := by
    intro l h k hk
    simp only [sha1Block, sha1Compress, sha1Schedule_eq (mem_range.mp hk),
      foldl_ext _ _ h fun s j hj => sha1Round_eq _ s (mem_range.mp hj), BitVec.add_comm]
  rw [sha1Raw, paddedMessage_eq_pad (by omega) 0 hdata, map_some]
  simp only [foldl_ext _ _ _ (hblock _), flatMap_congr fun word _ => storeBigEndian32_eq word]
  rfl

/-! ### MD5 -/

/-- The registers that the code has in `A`, `B`, `C` and `D` after `i` operations. -/
def registersFrom (r : HashStandards.Md5State) (i : ℕ) : Md5State :=
  ⟨r (0 - Fin.ofNat 4 i), r (1 - Fin.ofNat 4 i), r (2 - Fin.ofNat 4 i), r (3 - Fin.ofNat 4 i)⟩

theorem md5Words_eq : ∀ i < 64, md5Words.getD i 0 =
    if i < 16 then i else if i < 32 then (5 * i + 1) % 16
    else if i < 48 then (3 * i + 5) % 16 else 7 * i % 16 := by
  decide

theorem md5S_eq : ∀ i < 64,
    md5S.getD i 0 = (md5Shifts.getD (i / 16) []).getD (i % 4) 0 ∧ md5S.getD i 0 < 32 := by
  decide

theorem md5Words_lt : ∀ i < 64, md5Words.getD i 0 < 16 := by
  decide

theorem rotl_eq (x : BitVec 32) {n : ℕ} (h : n < 32) : rotl x n = x.rotateLeft n := by
  rw [rotl, BitVec.rotateLeft_def, Nat.mod_eq_of_lt h]

theorem md5Round_of_lt (l : Text) (offset : ℕ) (s : Md5State) {i : ℕ} (hi : i < 64) :
    md5Round l offset s i =
      ⟨s.d, s.b + rotl (s.a + md5Function (i / 16) s.b s.c s.d + md5K.getD i 0 +
        loadLittleEndian32 l (offset + 4 * md5Words.getD i 0)) (md5S.getD i 0), s.b, s.c⟩ := by
  rw [md5Round, md5Words_eq i hi]
  split_ifs
  · rw [show i / 16 = 0 by omega]
    rfl
  · rw [show i / 16 = 1 by omega]
    rfl
  · rw [show i / 16 = 2 by omega]
    rfl
  · rw [show i / 16 = 3 by omega]
    rfl

theorem registersFrom_update (r : HashStandards.Md5State) (i : ℕ) (v : BitVec 32) :
    registersFrom (update r (0 - Fin.ofNat 4 i) v) (i + 1) =
      ⟨r (3 - Fin.ofNat 4 i), v, r (1 - Fin.ofNat 4 i), r (2 - Fin.ofNat 4 i)⟩ := by
  have hsucc : Fin.ofNat 4 (i + 1) = Fin.ofNat 4 i + 1 := by
    apply Fin.ext
    simp [Fin.val_add]
  have hmove : ∀ x : Fin 4, 0 - (x + 1) = 3 - x ∧ 1 - (x + 1) = 0 - x ∧ 2 - (x + 1) = 1 - x ∧
      3 - (x + 1) = 2 - x ∧ 3 - x ≠ 0 - x ∧ 1 - x ≠ 0 - x ∧ 2 - x ≠ 0 - x := by
    decide
  obtain ⟨h0, h1, h2, h3, hne3, hne1, hne2⟩ := hmove (Fin.ofNat 4 i)
  rw [registersFrom, hsucc, h0, h1, h2, h3, update_of_ne hne3, update_self,
    update_of_ne hne1, update_of_ne hne2]

theorem md5Round_eq (hk : k < l.length / 64) (hi : i < 64) (r : HashStandards.Md5State) :
    md5Round l (k * 64) (registersFrom r i) i =
      registersFrom (md5Operation (part 64 l k) r i) (i + 1) := by
  have hword := md5Words_lt i hi
  obtain ⟨hshf, hlt⟩ := md5S_eq i hi
  have hswap : ∀ x y z : BitVec 32, x + y + z = x + z + y := fun x y z => by
    rw [BitVec.add_assoc, BitVec.add_comm y, ← BitVec.add_assoc]
  rw [md5Round_of_lt l _ _ hi, md5Operation, registersFrom_update, rotl_eq _ hlt, hshf,
    loadLittleEndian32_eq (by omega), Nat.mul_comm k, ← part_part (by omega),
    hswap _ (md5K.getD i 0)]
  rfl

theorem md5Rounds_eq (hk : k < l.length / 64) (r : HashStandards.Md5State) {i : ℕ} (hi : i ≤ 64) :
    (List.range i).foldl (md5Round l (k * 64)) (registersFrom r 0) =
      registersFrom ((List.range i).foldl (md5Operation (part 64 l k)) r) i := by
  induction i with
  | zero => rfl
  | succ i ih =>
    rw [range_succ, foldl_append, foldl_append, ih (by omega), foldl_cons,
      foldl_nil, foldl_cons, foldl_nil, md5Round_eq hk (by omega)]

theorem md5Block_eq (hk : k < l.length / 64) (r : HashStandards.Md5State) :
    md5Block l (registersFrom r 0) k = registersFrom (md5Compress r (part 64 l k)) 0 := by
  rw [md5Block, md5Rounds_eq hk r le_rfl]
  simp only [registersFrom, md5Compress, BitVec.add_comm]
  rfl

theorem md5Blocks_eq (l : Text) (r : HashStandards.Md5State) :
    (List.range (l.length / 64)).foldl (md5Block l) (registersFrom r 0) =
      registersFrom (hashBlocks 64 md5Compress r l) 0 := by
  have hblocks : ∀ n ≤ l.length / 64, (List.range n).foldl (md5Block l) (registersFrom r 0) =
      registersFrom ((List.range n).foldl (fun r k => md5Compress r (part 64 l k)) r) 0 := by
    intro n hn
    induction n with
    | zero => rfl
    | succ n ih =>
      rw [range_succ, foldl_append, foldl_append, ih (by omega), foldl_cons,
        foldl_nil, foldl_cons, foldl_nil, md5Block_eq hn]
  exact hblocks _ le_rfl

theorem cryptoHex_eq (digest : Text) : cryptoHex digest = hexText digest := by
  have hdig : ∀ c : UInt8, [byteAt (bytes "0123456789abcdef") (c.toNat >>> 4 &&& 0x0f),
      byteAt (bytes "0123456789abcdef") (c.toNat &&& 0x0f)] =
      [lowerHexDigit (c.toNat / 16), lowerHexDigit (c.toNat % 16)] :=
    forall_byte (by decide +kernel)
  exact flatMap_congr fun c _ => hdig c

theorem cryptoMd5_eq (hdata : data.length * 8 < 2 ^ 64) :
    cryptoMd5 data = some (hexText (md5 data)) := by
  have hinit : (⟨0x67452301, 0xefcdab89, 0x98badcfe, 0x10325476⟩ : Md5State) =
      registersFrom md5Initial 0 := rfl
  rw [cryptoMd5, paddedMessageMd5_eq_pad hdata, map_some, hinit]
  simp only [md5Blocks_eq, cryptoHex_eq]
  rfl

/-! ### HMAC -/

theorem hmacRaw_eq {raw : Text → Option Text} {hash : Text → Text} {digestLength : ℕ}
    (hraw : ∀ m : Text, m.length < 2 ^ 32 → raw m = some (hash m))
    (hlen : ∀ m, (hash m).length = digestLength) (hdigest : digestLength ≤ 64) {key : Text}
    (hkey : key.length < 2 ^ 31) (hdata : data.length < 2 ^ 31) :
    hmacRaw raw digestLength key data = some (hmac hash 64 key data) := by
  have hblock : (if 64 < key.length then (raw key).bind fun digest =>
      store (replicate 64 0) 0 digest else store (replicate 64 0) 0 key) =
      some (hmacKey hash 64 key) := by
    rw [hmacKey]
    split_ifs with hlong
    · rw [hraw key (by omega), bind_some, store_replicate (by rw [hlen]; exact hdigest)]
    · exact store_replicate (by omega)
  have hkeyLength : (hmacKey hash 64 key).length = 64 := by
    rw [hmacKey]
    split_ifs <;> simp only [length_append, length_replicate, hlen] <;> omega
  have hinn := hlen ((hmacKey hash 64 key).map (· ^^^ 0x36) ++ data)
  have hout := store_segment ((hmacKey hash 64 key).map (· ^^^ 0x5c))
    (replicate digestLength 0) (replicate (64 - digestLength) 0)
    (hash ((hmacKey hash 64 key).map (· ^^^ 0x36) ++ data))
    (show 64 = _ by rw [length_map, hkeyLength]) (by rw [hinn, length_replicate])
  rw [hmacRaw, hblock, bind_some, hraw _ (by
      rw [length_append, length_map, hkeyLength]; omega), bind_some,
    store_replicate (by omega), bind_some,
    store_replicate (by rw [length_map, hkeyLength]; omega), bind_some,
    take_append_of_le_length hinn.ge, take_of_length_le hinn.le, length_map,
    hkeyLength, replicate_split digestLength (by omega), hout, bind_some, hraw _ (by
      rw [length_take]; omega), hmac]
  congr 2
  rw [← append_assoc, take_append_of_le_length
    (by rw [length_append, length_map, hkeyLength, hinn]),
    take_of_length_le (by rw [length_append, length_map, hkeyLength, hinn])]

/-! ### All of them -/

@[simp] theorem length_wordBytes {w : ℕ} (words : List (BitVec w)) :
    (wordBytes words).length = words.length * (w / 8) := by
  simp [wordBytes, length_flatMap]

theorem length_sha256 (m : Text) : (sha256 m).length = 32 := length_wordBytes _

theorem length_sha1 (m : Text) : (sha1 m).length = 20 := length_wordBytes _

theorem dvd_length_pad {encode : ℕ → ℕ → List UInt8} (hencode : ∀ k n, (encode k n).length = k)
    {blockSize : ℕ} (hpos : 0 < blockSize) (fieldSize : ℕ) (data : Text) :
    blockSize ∣ (pad blockSize fieldSize encode data).length := by
  rw [length_pad hencode]
  exact (zeroCount_isLeast hpos fieldSize data.length).1

/-- Every message is padded within its buffer to a whole number of blocks, and every digest and
every keyed hash is the one that the standards define. -/
theorem hashes_arePublished {key : Text} (hkey : key.length < 2 ^ 31) (hdata : data.length < 2 ^ 31) :
    (sha256Raw data = some (sha256 data) ∧ sha1Raw data = some (sha1 data) ∧
      sha512Raw data = some (sha512 data) ∧ cryptoMd5 data = some (hexText (md5 data))) ∧
    (paddedMessage 64 8 data = some (pad 64 8 bigEndian data) ∧
      64 ∣ (pad 64 8 bigEndian data).length) ∧
    (paddedMessage 128 16 data = some (pad 128 16 bigEndian data) ∧
      128 ∣ (pad 128 16 bigEndian data).length) ∧
    (paddedMessageMd5 data = some (pad 64 8 littleEndian data) ∧
      64 ∣ (pad 64 8 littleEndian data).length) ∧
    hmacRaw sha256Raw 32 key data = some (hmac sha256 64 key data) ∧
    hmacRaw sha1Raw 20 key data = some (hmac sha1 64 key data) := by
  have hbits : data.length * 8 < 2 ^ 64 := by omega
  refine ⟨⟨sha256Raw_eq hbits, sha1Raw_eq hbits, sha512Raw_eq hbits, cryptoMd5_eq hbits⟩,
    ⟨paddedMessage_eq_pad (by omega) 0 hbits, dvd_length_pad length_bigEndian (by omega) 8 data⟩,
    ⟨paddedMessage_eq_pad (by omega) 8 hbits, dvd_length_pad length_bigEndian (by omega) 16 data⟩,
    ⟨paddedMessageMd5_eq_pad hbits, dvd_length_pad length_littleEndian (by omega) 8 data⟩, ?_, ?_⟩
  · exact hmacRaw_eq (fun m hm => sha256Raw_eq (by omega)) length_sha256 (by omega) hkey hdata
  · exact hmacRaw_eq (fun m hm => sha1Raw_eq (by omega)) length_sha1 (by omega) hkey hdata

/-- The message of three letters, with a key. -/
theorem hashes_arePublished_abc : sha256Raw (bytes "abc") = some (sha256 (bytes "abc")) ∧
      hmacRaw sha256Raw 32 (bytes "key") (bytes "abc") =
        some (hmac sha256 64 (bytes "key") (bytes "abc")) := by
  have habc : (bytes "abc").length < 2 ^ 31 := by decide
  have hkey : (bytes "key").length < 2 ^ 31 := by decide
  exact ⟨(hashes_arePublished hkey habc).1.1, (hashes_arePublished hkey habc).2.2.2.2.1⟩

end Grayscale.Crypto
