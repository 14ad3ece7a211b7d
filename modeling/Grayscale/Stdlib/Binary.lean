import Grayscale.Runtime.WideIntegerLaws
import Grayscale.Stdlib.CryptoLaws

/-!
# Binary codecs

The encoders and decoders of `stdlib/binary.c` on a little-endian host, where the bytes of a value
lie in memory the lowest first.
-/

namespace Grayscale.Binary

open HashStandards List

open Crypto (length_littleEndian loadBigEndian64 loadBigEndian64_eq)

/-! ### Bytes of a number -/

theorem littleEndian_succ (k n : ℕ) :
    littleEndian (k + 1) n = n.toUInt8 :: littleEndian k (n / 256) := by
  simp [littleEndian, range_succ_eq_map, Nat.pow_succ', Nat.div_div_eq_div_mul]

theorem ofLittleEndian_cons (c : UInt8) (l : Text) :
    ofLittleEndian (c :: l) = ofLittleEndian l * 256 + c.toNat := by
  rw [ofLittleEndian, reverse_cons, ofBigEndian, foldl_append]
  rfl

theorem ofLittleEndian_littleEndian (k n : ℕ) :
    ofLittleEndian (littleEndian k n) = n % 256 ^ k := by
  induction k generalizing n with
  | zero => exact (Nat.mod_one n).symm
  | succ k ih =>
    rw [littleEndian_succ, ofLittleEndian_cons, ih, Nat.pow_succ', Nat.mod_mul, Nat.mul_comm,
      Nat.add_comm]
    rfl

theorem littleEndian_ofLittleEndian (l : Text) : littleEndian l.length (ofLittleEndian l) = l := by
  induction l with
  | nil => rfl
  | cons c l ih =>
    have hc : c.toNat < 256 := c.toNat_lt
    rw [length_cons, littleEndian_succ, ofLittleEndian_cons,
      show (ofLittleEndian l * 256 + c.toNat) / 256 = ofLittleEndian l by omega, ih]
    congr 1
    apply UInt8.toNat_inj.mp
    change (ofLittleEndian l * 256 + c.toNat) % 256 = c.toNat
    omega

theorem ofLittleEndian_lt (l : Text) : ofLittleEndian l < 256 ^ l.length := by
  have h := ofLittleEndian_littleEndian l.length (ofLittleEndian l)
  rw [littleEndian_ofLittleEndian] at h
  rw [h]
  exact Nat.mod_lt _ (Nat.pow_pos (by decide))

theorem ofLittleEndian_append (l m : Text) :
    ofLittleEndian (l ++ m) = ofLittleEndian l + 256 ^ l.length * ofLittleEndian m := by
  induction l with
  | nil => exact (Nat.one_mul _).symm.trans (Nat.zero_add _).symm
  | cons c l ih =>
    rw [cons_append, ofLittleEndian_cons, ofLittleEndian_cons, ih, length_cons, Nat.pow_succ]
    ring

/-! ### Memory -/

/-- A type of `size` bytes: the number that its bits are, and its bytes in memory. -/
structure Layout (α : Type) where
  size : ℕ
  toNat : α → ℕ
  store : α → Text
  load : Text → α
  length_store : ∀ v, (store v).length = size
  toNat_eq : ∀ v, toNat v = ofLittleEndian (store v)
  load_store : ∀ v, load (store v) = v
  store_load : ∀ l, l.length = size → store (load l) = l

/-- An integer of the host. -/
def integer (size : ℕ) : Layout (BitVec (8 * size)) where
  size := size
  toNat := BitVec.toNat
  store v := littleEndian size v.toNat
  load l := BitVec.ofNat _ (ofLittleEndian l)
  length_store _ := length_littleEndian ..
  toNat_eq v := by
    rw [ofLittleEndian_littleEndian, Nat.mod_eq_of_lt (v.isLt.trans_eq (Nat.pow_mul 2 8 size))]
  load_store v := by
    apply BitVec.eq_of_toNat_eq
    rw [BitVec.toNat_ofNat, ofLittleEndian_littleEndian, Nat.pow_mul, Nat.mod_mod]
    exact Nat.mod_eq_of_lt (v.isLt.trans_eq (Nat.pow_mul 2 8 size))
  store_load l hl := by
    subst hl
    rw [BitVec.toNat_ofNat, Nat.pow_mul, Nat.mod_eq_of_lt (ofLittleEndian_lt l),
      littleEndian_ofLittleEndian]

/-- Words one behind the other. -/
def storeWords (w : List Word) : Text := w.flatMap (integer 8).store

def loadWords : ℕ → Text → List Word
  | 0, _ => []
  | n + 1, l => (integer 8).load (l.take 8) :: loadWords n (l.drop 8)

theorem length_store_word (x : Word) : ((integer 8).store x).length = 8 := length_littleEndian ..

theorem length_storeWords (w : List Word) : (storeWords w).length = w.length * 8 := by
  induction w with
  | nil => rfl
  | cons x w ih =>
    rw [storeWords, flatMap_cons, length_append, length_store_word, length_cons]
    change 8 + (storeWords w).length = (w.length + 1) * 8
    omega

theorem wordsNumber_eq (w : List Word) : wordsNumber w = ofLittleEndian (storeWords w) := by
  induction w with
  | nil => rfl
  | cons x w ih =>
    rw [storeWords, flatMap_cons, ofLittleEndian_append, length_store_word,
      ← (integer 8).toNat_eq, wordsNumber, map_cons, Limbs.number_cons]
    exact congrArg (fun n => x.toNat + 2 ^ 64 * n) ih

theorem loadWords_storeWords (w : List Word) : loadWords w.length (storeWords w) = w := by
  induction w with
  | nil => rfl
  | cons x w ih =>
    rw [length_cons, loadWords, storeWords, flatMap_cons, take_left' (length_store_word x),
      drop_left' (length_store_word x), (integer 8).load_store]
    exact congrArg _ ih

theorem storeWords_loadWords (n : ℕ) {l : Text} (hl : l.length = n * 8) :
    storeWords (loadWords n l) = l := by
  induction n generalizing l with
  | zero => exact (eq_nil_of_length_eq_zero (hl.trans (Nat.zero_mul 8))).symm
  | succ n ih =>
    rw [loadWords, storeWords, flatMap_cons, (integer 8).store_load _
      (by rw [length_take]; change _ = 8; omega)]
    refine (congrArg _ (ih ?_)).trans (take_append_drop 8 l)
    rw [length_drop]
    omega

theorem length_loadWords (n : ℕ) (l : Text) : (loadWords n l).length = n := by
  induction n generalizing l with
  | zero => rfl
  | succ n ih => rw [loadWords, length_cons, ih]

/-- The struct of two words. -/
def words128 : Layout Words128 where
  size := 16
  toNat := Words128.toNat
  store x := storeWords [x.low, x.high]
  load l := ⟨(integer 8).load (l.take 8), (integer 8).load ((l.drop 8).take 8)⟩
  length_store _ := length_storeWords _
  toNat_eq x := wordsNumber_eq [x.low, x.high]
  load_store x := by
    have h := loadWords_storeWords [x.low, x.high]
    exact congrArg₂ Words128.mk (List.cons.inj h).1 (List.cons.inj (List.cons.inj h).2).1
  store_load _ hl := storeWords_loadWords 2 hl

/-- The struct of four words. -/
def words256 : Layout Words256 where
  size := 32
  toNat := Words256.toNat
  store x := storeWords x.w
  load l := ⟨loadWords 4 l, length_loadWords 4 l⟩
  length_store x := by rw [length_storeWords, x.length_w]
  toNat_eq x := wordsNumber_eq x.w
  load_store x := by
    obtain ⟨w, hw⟩ := x
    congr
    rw [← hw]
    exact loadWords_storeWords w
  store_load _ hl := storeWords_loadWords 4 hl

/-! ### The functions -/

/-- `make_bytes`. -/
def makeBytes (data : Text) (size : ℕ) : Text := (List.range size).map (byteAt data)

/-- `make_bytes_reversed`. -/
def makeBytesReversed (data : Text) (size : ℕ) : Text := (List.range size).reverse.map (byteAt data)

/-- `gray_binary_check_length`. -/
def grayBinaryCheckLength (bytes : Text) (need : ℕ) : Except String Unit :=
  if bytes.length ≠ need then .error "P0113" else .ok ()

/-- The functions for a type, and the integers that its values stand for. -/
structure Codec (α : Type) where
  size : ℕ
  value : α → ℤ
  encodeLe : α → Text
  encodeBe : α → Text
  decodeLe : Text → Except String α
  decodeBe : Text → Except String α

variable {α : Type}

/-- `BINARY_CODEC`. -/
def binaryCodec (T : ScalarType) (L : Layout α) : Codec α where
  size := L.size
  value v := convert T (L.toNat v)
  encodeLe v := makeBytes (L.store v) L.size
  encodeBe v := makeBytesReversed (L.store v) L.size
  decodeLe bytes := (grayBinaryCheckLength bytes L.size).map fun _ => L.load bytes
  decodeBe bytes := (grayBinaryCheckLength bytes L.size).map fun _ =>
    L.load ((List.range L.size).map fun i => byteAt bytes (L.size - 1 - i))

def i16 : Codec (BitVec (8 * 2)) := binaryCodec .i16 (integer 2)

def u16 : Codec (BitVec (8 * 2)) := binaryCodec .u16 (integer 2)

def i32 : Codec (BitVec (8 * 4)) := binaryCodec .i32 (integer 4)

def u32 : Codec (BitVec (8 * 4)) := binaryCodec .u32 (integer 4)

def i64 : Codec (BitVec (8 * 8)) := binaryCodec .i64 (integer 8)

def u64 : Codec (BitVec (8 * 8)) := binaryCodec .u64 (integer 8)

/-- `gray_binary_decode_u128_be` and `gray_binary_decode_i128_be`. -/
def grayBinaryDecode128Be (bytes : Text) : Except String Words128 :=
  (grayBinaryCheckLength bytes 16).map fun _ =>
    ⟨loadBigEndian64 bytes 8, loadBigEndian64 bytes 0⟩

/-- `gray_binary_decode_u256_be` and `gray_binary_decode_i256_be`. -/
def grayBinaryDecode256Be (bytes : Text) : Except String Words256 :=
  (grayBinaryCheckLength bytes 32).map fun _ =>
    ⟨(List.range 4).map fun limbIndex => loadBigEndian64 bytes ((3 - limbIndex) * 8), rfl⟩

def i128 : Codec I128 := { binaryCodec .i128 words128 with decodeBe := grayBinaryDecode128Be }

def u128 : Codec U128 := { binaryCodec .u128 words128 with decodeBe := grayBinaryDecode128Be }

def i256 : Codec I256 := { binaryCodec .i256 words256 with decodeBe := grayBinaryDecode256Be }

def u256 : Codec U256 := { binaryCodec .u256 words256 with decodeBe := grayBinaryDecode256Be }

/-- The decoders invert the encoders, and the two orders mirror each other. -/
structure Codec.Mirrors (C : Codec α) : Prop where
  decodeLe_encodeLe : ∀ v, C.decodeLe (C.encodeLe v) = .ok v
  decodeBe_encodeBe : ∀ v, C.decodeBe (C.encodeBe v) = .ok v
  encodeBe_eq_reverse : ∀ v, C.encodeBe v = (C.encodeLe v).reverse
  encodeBe_eq_digits : ∀ v, C.encodeBe v = bigEndian C.size (C.value v % 256 ^ C.size).toNat
  exists_decodeLe : ∀ l, l.length = C.size → ∃ v, C.decodeLe l = .ok v ∧ C.encodeLe v = l
  exists_decodeBe : ∀ l, l.length = C.size → ∃ v, C.decodeBe l = .ok v ∧ C.encodeBe v = l
  panics : ∀ l, l.length ≠ C.size → C.decodeLe l = .error "P0113" ∧ C.decodeBe l = .error "P0113"

/-! ### The proofs -/

theorem map_byteAt (l : Text) : (List.range l.length).map (byteAt l) = l := by
  refine ext_getElem (by simp) fun i hi _ => ?_
  rw [getElem_map, getElem_range, byteAt, getD_eq_getElem]

theorem map_byteAt_reverse (l : Text) :
    (List.range l.length).map (fun i => byteAt l (l.length - 1 - i)) = l.reverse := by
  refine ext_getElem (by simp) fun i hi hi' => ?_
  rw [length_reverse] at hi'
  rw [getElem_map, getElem_range, byteAt, getD_eq_getElem _ _ (by omega), getElem_reverse]

theorem binaryCodec_mirrors {T : ScalarType} {L : Layout α} (hbits : T.bits = 8 * L.size) :
    (binaryCodec T L).Mirrors := by
  have hle : ∀ v, makeBytes (L.store v) L.size = L.store v := fun v => by
    rw [makeBytes, ← L.length_store v, map_byteAt]
  have hbe : ∀ v, makeBytesReversed (L.store v) L.size = (L.store v).reverse := fun v => by
    rw [makeBytesReversed, map_reverse]
    exact congrArg reverse (hle v)
  have hchk : ∀ l, l.length = L.size → grayBinaryCheckLength l L.size = .ok () :=
    fun l hl => if_neg (not_not.mpr hl)
  have hdec : ∀ l, l.length = L.size → (binaryCodec T L).decodeBe l = .ok (L.load l.reverse) := by
    intro l hl
    change (grayBinaryCheckLength l L.size).map _ = _
    rw [hchk l hl, ← hl, map_byteAt_reverse]
    rfl
  refine ⟨fun v => ?_, fun v => ?_, fun v => ?_, fun v => ?_, fun l hl => ?_, fun l hl => ?_,
    fun l hl => ?_⟩
  · change (grayBinaryCheckLength (makeBytes _ _) L.size).map _ = _
    rw [hchk _ ((congrArg length (hle v)).trans (L.length_store v))]
    exact congrArg Except.ok ((congrArg L.load (hle v)).trans (L.load_store v))
  · change (binaryCodec T L).decodeBe (makeBytesReversed _ _) = _
    rw [hbe, hdec _ (length_reverse.trans (L.length_store v)), reverse_reverse, L.load_store]
  · change makeBytesReversed _ _ = (makeBytes _ _).reverse
    rw [hle, hbe]
  · have hval : convert T (L.toNat v) % 256 ^ L.size = L.toNat v := by
      have hsize : T.format.size = (256 : ℤ) ^ L.size := by
        rw [IntFormat.size, show T.format.bits = T.bits from rfl, hbits, pow_mul]
        rfl
      have hlt := ofLittleEndian_lt (L.store v)
      rw [L.length_store, ← L.toNat_eq] at hlt
      have hmod := convert_modEq T (L.toNat v)
      rw [hsize] at hmod
      exact Eq.trans hmod (Int.emod_eq_of_lt (Int.natCast_nonneg _) (mod_cast hlt))
    change makeBytesReversed _ _ = bigEndian L.size (convert T (L.toNat v) % 256 ^ L.size).toNat
    rw [hval, hbe, Int.toNat_natCast, L.toNat_eq, ← L.length_store v, bigEndian]
    exact congrArg reverse (littleEndian_ofLittleEndian _).symm
  · refine ⟨L.load l, ?_, (hle _).trans (L.store_load l hl)⟩
    change (grayBinaryCheckLength l L.size).map _ = _
    rw [hchk l hl]
    rfl
  · refine ⟨_, hdec l hl, (hbe _).trans ?_⟩
    rw [L.store_load _ (length_reverse.trans hl), reverse_reverse]
  · have h : grayBinaryCheckLength l L.size = .error "P0113" := if_pos hl
    constructor
    · change (grayBinaryCheckLength l L.size).map _ = _
      rw [h]
      rfl
    · change (grayBinaryCheckLength l L.size).map _ = _
      rw [h]
      rfl

theorem loadBigEndian64_eq_load {l : Text} {i : ℕ} (h : i + 8 ≤ l.length) :
    loadBigEndian64 l i = (integer 8).load ((l.reverse.drop (l.length - 8 - i)).take 8) := by
  have hword : (l.reverse.drop (l.length - 8 - i)).take 8 = ((l.drop i).take 8).reverse := by
    rw [drop_reverse, take_reverse, length_take, show l.length - (l.length - 8 - i) = i + 8 by omega,
      Nat.min_eq_left h, Nat.add_sub_cancel, drop_take, Nat.add_sub_cancel_left]
  rw [loadBigEndian64_eq h, hword]
  change _ = BitVec.ofNat 64 (ofBigEndian (reverse (reverse _)))
  rw [reverse_reverse]

/-- A decoder that reads words instead of reversing the bytes is the one of `BINARY_CODEC`. -/
theorem decodeBe_eq (T : ScalarType) (L : Layout α) (decode : Text → α)
    (h : ∀ l, l.length = L.size → decode l = L.load l.reverse) :
    (fun bytes => (grayBinaryCheckLength bytes L.size).map fun _ => decode bytes) =
      (binaryCodec T L).decodeBe := by
  funext l
  change (grayBinaryCheckLength l L.size).map _ = (grayBinaryCheckLength l L.size).map _
  rw [grayBinaryCheckLength]
  split_ifs with hl
  · rfl
  · refine congrArg Except.ok ?_
    rw [h l (not_not.mp hl), ← map_byteAt_reverse, not_not.mp hl]

theorem decode128Be_eq (T : ScalarType) :
    grayBinaryDecode128Be = (binaryCodec T words128).decodeBe := by
  refine decodeBe_eq T words128 (fun l => ⟨loadBigEndian64 l 8, loadBigEndian64 l 0⟩)
    fun l hl => ?_
  have hl : l.length = 16 := hl
  rw [loadBigEndian64_eq_load (by omega), loadBigEndian64_eq_load (by omega), hl]
  rfl

theorem decode256Be_eq (T : ScalarType) :
    grayBinaryDecode256Be = (binaryCodec T words256).decodeBe := by
  refine decodeBe_eq T words256 (fun l => ⟨_, rfl⟩) fun l hl => ?_
  have hl : l.length = 32 := hl
  have hwrd : (List.range 4).map (fun limbIndex => loadBigEndian64 l ((3 - limbIndex) * 8)) =
      loadWords 4 l.reverse := by
    change [loadBigEndian64 l 24, loadBigEndian64 l 16, loadBigEndian64 l 8,
      loadBigEndian64 l 0] = _
    simp only [loadWords, drop_drop]
    rw [loadBigEndian64_eq_load (by omega), loadBigEndian64_eq_load (by omega),
      loadBigEndian64_eq_load (by omega), loadBigEndian64_eq_load (by omega), hl]
    rfl
  exact Words256.mk.congr_simp _ _ hwrd _

/-- The codecs of the integers from two bytes on. -/
theorem codecs_mirror : (i16.Mirrors ∧ u16.Mirrors ∧ i32.Mirrors ∧ u32.Mirrors ∧ i64.Mirrors ∧
    u64.Mirrors) ∧ i128.Mirrors ∧ u128.Mirrors ∧ i256.Mirrors ∧ u256.Mirrors := by
  refine ⟨⟨binaryCodec_mirrors rfl, binaryCodec_mirrors rfl, binaryCodec_mirrors rfl,
    binaryCodec_mirrors rfl, binaryCodec_mirrors rfl, binaryCodec_mirrors rfl⟩, ?_, ?_, ?_, ?_⟩
  · rw [i128, decode128Be_eq .i128]
    exact binaryCodec_mirrors rfl
  · rw [u128, decode128Be_eq .u128]
    exact binaryCodec_mirrors rfl
  · rw [i256, decode256Be_eq .i256]
    exact binaryCodec_mirrors rfl
  · rw [u256, decode256Be_eq .u256]
    exact binaryCodec_mirrors rfl

end Grayscale.Binary
