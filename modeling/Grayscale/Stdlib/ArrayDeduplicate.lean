import Grayscale.Library.HashedFirsts
import Grayscale.Stdlib.ArraySort

/-!
# Arrays without duplicates

`gray_arrays_deduplicate`, with the equality and the hash of elements. A string element is its
content, and any other one is its bytes in memory.
-/

namespace Grayscale

open List Function

/-! ### Elements -/

def memoryBytes (size n : ℕ) : Text := (List.range size).map fun i => UInt8.ofNat (n / 256 ^ i)

/-- The bytes of an element in memory; the content of a string. -/
def ElemKind.bytes : (kind : ElemKind) → kind.Value → Text
  | .i8 => fun (x : Int8) => memoryBytes 1 x.toUInt8.toNat
  | .i16 => fun (x : Int16) => memoryBytes 2 x.toUInt16.toNat
  | .i32 | .char => fun (x : Int32) => memoryBytes 4 x.toUInt32.toNat
  | .i64 => fun (x : Int64) => memoryBytes 8 x.toUInt64.toNat
  | .u8 | .bool => fun (x : UInt8) => memoryBytes 1 x.toNat
  | .u16 => fun (x : UInt16) => memoryBytes 2 x.toNat
  | .u32 | .f32 => fun (x : UInt32) => memoryBytes 4 x.toNat
  | .u64 | .f64 => fun (x : UInt64) => memoryBytes 8 x.toNat
  | .i128 | .u128 => fun (x : Words128) => memoryBytes 16 x.toNat
  | .i256 | .u256 => fun (x : Words256) => memoryBytes 32 x.toNat
  | .string | .other | .array | .map => fun (x : Text) => x

def grayElemEqual (size : ℕ) : (kind : ElemKind) → kind.Value → kind.Value → Bool
  | .f32 => fun left right => floatEq (float32Value left) (float32Value right)
  | .f64 => fun left right => floatEq (float64Value left) (float64Value right)
  | .string => fun (left right : Text) =>
    left.length == right.length && (left.length == 0 || memcmp left right == 0)
  | kind => fun left right =>
    memcmp ((kind.bytes left).take size) ((kind.bytes right).take size) == 0

def fnv1a (data : Text) (hash : UInt32) : UInt32 :=
  data.foldl (fun hash byte => (hash ^^^ byte.toUInt32) * 16777619) hash

/-- `gray_elem_hash`: both zeros of a floating point type hash as the positive one. -/
def grayElemHash (size : ℕ) : (kind : ElemKind) → kind.Value → UInt32
  | .f32 => fun (bits : UInt32) =>
    fnv1a (ElemKind.f32.bytes (if floatEq (float32Value bits) (some 0) then (0 : UInt32) else bits))
      2166136261
  | .f64 => fun (bits : UInt64) =>
    fnv1a (ElemKind.f64.bytes (if floatEq (float64Value bits) (some 0) then (0 : UInt64) else bits))
      2166136261
  | .string => fun (string : Text) => fnv1a string 2166136261
  | kind => fun element => fnv1a ((kind.bytes element).take size) 2166136261

/-- The element has the size; a string has another size than its content. -/
def IsElement (size : ℕ) (kind : ElemKind) (x : kind.Value) : Prop :=
  kind = .string ∨ (kind.bytes x).length = size

structure SizedArray (kind : ElemKind) extends GrayArray kind where
  elemSize : ℕ
  isElement : ∀ i < len, IsElement elemSize kind (data i)

/-! ### The function -/

section Deduplicate

variable {kind : ElemKind}

/-- `GRAY_ARRAY_PUSH`, where the array has room. -/
def GrayArray.push (array : GrayArray kind) (value : kind.Value) : GrayArray kind where
  data := update array.data array.len value
  len := array.len + 1

/-- What the rounds of `gray_arrays_deduplicate` change; the table has `none` for -1. -/
structure DedupState (kind : ElemKind) where
  table : ℕ → Option ℕ
  result : GrayArray kind

/-- The loop that doubles the capacity; `none` when the fuel is used up. -/
def dedupCapacity (bound : ℕ) : ℕ → ℕ → Option ℕ
  | 0, _ => none
  | fuel + 1, capacity =>
    if capacity < bound then dedupCapacity bound fuel (capacity * 2 % 2 ^ 32) else some capacity

def SizedArray.isEqual (array : SizedArray kind) (i j : ℕ) : Bool :=
  grayElemEqual array.elemSize kind (array.data i) (array.data j)

def SizedArray.hash (array : SizedArray kind) (i : ℕ) : ℕ :=
  (grayElemHash array.elemSize kind (array.data i)).toNat

def dedupRound (array : SizedArray kind) (capacity fuel i : ℕ) (s : DedupState kind) :
    Option (DedupState kind) :=
  let mask := capacity - 1
  (probeFrom s.table (fun j => array.isEqual j i) mask fuel (array.hash i &&& mask)).map
    fun (slot, found) =>
      if found then s else ⟨update s.table slot (some i), s.result.push (array.data i)⟩

/-- The state after a number of rounds. The result starts with the memory of a new array. -/
def dedupRounds (memory : ℕ → kind.Value) (array : SizedArray kind) (capacity fuel : ℕ) :
    ℕ → Option (DedupState kind)
  | 0 => some ⟨fun _ => none, ⟨memory, 0⟩⟩
  | n + 1 => (dedupRounds memory array capacity fuel n).bind (dedupRound array capacity fuel n)

/-- `gray_arrays_deduplicate`; the fuel bounds the rounds of each of its loops. -/
def grayArraysDeduplicate (memory : ℕ → kind.Value) (fuel : ℕ) (array : SizedArray kind) :
    Option (GrayArray kind) :=
  if array.len ≤ 1 then some array.toGrayArray
  else do
    let capacity ← dedupCapacity (array.len * 2 % 2 ^ 32) fuel 16
    let s ← dedupRounds memory array capacity fuel array.len
    return s.result

end Deduplicate

/-! ### Equality and hash -/

theorem memcmp_eq_zero_iff {left right : Text} (h : left.length = right.length) :
    memcmp left right = 0 ↔ left = right := by
  induction left generalizing right with
  | nil =>
    rw [length_eq_zero_iff.mp h.symm]
    exact iff_of_true rfl rfl
  | cons x left ih =>
    cases right with
    | nil => cases h
    | cons y right =>
      rw [memcmp, List.cons.injEq, ← ih (Nat.succ.inj h)]
      by_cases hxy : x = y
      · rw [if_pos hxy]
        exact (and_iff_right hxy).symm
      · rw [if_neg hxy]
        refine iff_of_false ?_ fun heq => hxy heq.1
        split_ifs <;> decide

theorem floatEq_iff {left right : Option ℤ} :
    floatEq left right = true ↔ ∃ v, left = some v ∧ right = some v := by
  cases left with
  | none => simp [floatEq]
  | some a =>
    cases right with
    | none => simp [floatEq]
    | some b => simp [floatEq, eq_comm]

theorem eq_of_floatValue {width infinity a b : ℕ} (hwid : 0 < width) (ha : a < 2 ^ width)
    (hb : b < 2 ^ width) {v : ℤ} (hv : v ≠ 0) (hva : floatValue width infinity a = some v)
    (hvb : floatValue width infinity b = some v) : a = b := by
  obtain ⟨w, rfl⟩ := Nat.exists_eq_add_of_lt hwid
  have hspl : ∀ bits, bits < 2 ^ (0 + w + 1) → bits = bits % 2 ^ (0 + w + 1 - 1) +
      if 2 ^ (0 + w + 1 - 1) ≤ bits then 2 ^ (0 + w + 1 - 1) else 0 := by
    intro bits hbits
    rw [Nat.pow_succ] at hbits
    rw [Nat.add_sub_cancel]
    split_ifs with h
    · rw [Nat.mod_eq_sub_mod h, Nat.mod_eq_of_lt (by omega)]
      omega
    · exact (Nat.mod_eq_of_lt (by omega)).symm
  have hsplita := hspl a ha
  have hsplitb := hspl b hb
  unfold floatValue at hva hvb
  simp only [Option.ite_none_left_eq_some] at hva hvb
  obtain ⟨-, hva⟩ := hva
  obtain ⟨-, hvb⟩ := hvb
  split_ifs at hva hvb hsplita hsplitb <;> simp only [Option.some.injEq] at hva hvb <;> omega

theorem zeroed_eq {α : Type} {value : α → Option ℤ} (zero : α)
    (hinj : ∀ x y v, v ≠ 0 → value x = some v → value y = some v → x = y) {x y : α}
    (h : floatEq (value x) (value y) = true) : (if floatEq (value x) (some 0) then zero else x) =
      if floatEq (value y) (some 0) then zero else y := by
  obtain ⟨v, hx, hy⟩ := floatEq_iff.mp h
  by_cases hv : v = 0
  · have hzero : floatEq (some 0) (some 0) = true := by decide
    rw [hx, hy, hv, if_pos hzero, if_pos hzero]
  · rw [hinj x y v hv hx hy]

theorem stringEqual_iff (x y : Text) :
    (x.length == y.length && (x.length == 0 || memcmp x y == 0)) = true ↔ x = y := by
  rw [Bool.and_eq_true, Bool.or_eq_true, beq_iff_eq, beq_iff_eq, beq_iff_eq]
  refine ⟨fun ⟨hlen, h⟩ => ?_, fun h => ?_⟩
  · rcases h with h | h
    · rw [length_eq_zero_iff.mp h, length_eq_zero_iff.mp (hlen.symm.trans h)]
    · exact (memcmp_eq_zero_iff hlen).mp h
  · subst h
    exact ⟨rfl, .inr ((memcmp_eq_zero_iff rfl).mpr rfl)⟩

section Elements

variable {size : ℕ} {kind : ElemKind}

theorem grayElemEqual_iff_bytes (h32 : kind ≠ .f32) (h64 : kind ≠ .f64) {x y : kind.Value}
    (hx : IsElement size kind x) (hy : IsElement size kind y) :
    grayElemEqual size kind x y = true ↔ kind.bytes x = kind.bytes y := by
  have hbyt : kind ≠ .string →
      ((memcmp ((kind.bytes x).take size) ((kind.bytes y).take size) == 0) = true ↔
        kind.bytes x = kind.bytes y) := by
    intro hstr
    have hx := hx.resolve_left hstr
    have hy := hy.resolve_left hstr
    rw [take_of_length_le hx.le, take_of_length_le hy.le, beq_iff_eq,
      memcmp_eq_zero_iff (hx.trans hy.symm)]
  cases kind with
  | f32 => exact (h32 rfl).elim
  | f64 => exact (h64 rfl).elim
  | string => exact stringEqual_iff x y
  | _ => exact hbyt (by decide)

theorem grayElemHash_of_bytes (h32 : kind ≠ .f32) (h64 : kind ≠ .f64) {x : kind.Value}
    (hx : IsElement size kind x) : grayElemHash size kind x = fnv1a (kind.bytes x) 2166136261 := by
  have hbyt : kind ≠ .string →
      fnv1a ((kind.bytes x).take size) 2166136261 = fnv1a (kind.bytes x) 2166136261 := by
    intro hstr
    rw [take_of_length_le (hx.resolve_left hstr).le]
  cases kind with
  | f32 => exact (h32 rfl).elim
  | f64 => exact (h64 rfl).elim
  | string => rfl
  | _ => exact hbyt (by decide)

theorem grayElemEqual_trans {x y z : kind.Value} (hx : IsElement size kind x)
    (hy : IsElement size kind y) (hz : IsElement size kind z)
    (hxy : grayElemEqual size kind x y = true) (hyz : grayElemEqual size kind y z = true) :
    grayElemEqual size kind x z = true := by
  have hfloat : ∀ {a b c : Option ℤ}, floatEq a b = true → floatEq b c = true →
      floatEq a c = true := by
    intro a b c hab hbc
    obtain ⟨v, ha, hb⟩ := floatEq_iff.mp hab
    obtain ⟨w, hb', hc⟩ := floatEq_iff.mp hbc
    obtain rfl := Option.some.inj (hb.symm.trans hb')
    exact floatEq_iff.mpr ⟨v, ha, hc⟩
  by_cases h32 : kind = .f32
  · subst h32
    exact hfloat hxy hyz
  by_cases h64 : kind = .f64
  · subst h64
    exact hfloat hxy hyz
  rw [grayElemEqual_iff_bytes h32 h64 hx hy] at hxy
  rw [grayElemEqual_iff_bytes h32 h64 hy hz] at hyz
  exact (grayElemEqual_iff_bytes h32 h64 hx hz).mpr (hxy.trans hyz)

theorem grayElemHash_congr {x y : kind.Value} (hx : IsElement size kind x)
    (hy : IsElement size kind y) (hxy : grayElemEqual size kind x y = true) :
    grayElemHash size kind x = grayElemHash size kind y := by
  by_cases h32 : kind = .f32
  · subst h32
    refine congrArg (fun bits => fnv1a (ElemKind.f32.bytes bits) 2166136261) ?_
    refine zeroed_eq (0 : UInt32) (fun x y v hv hx hy => UInt32.toNat_inj.mp ?_) hxy
    exact eq_of_floatValue (by decide) x.toNat_lt y.toNat_lt hv hx hy
  by_cases h64 : kind = .f64
  · subst h64
    refine congrArg (fun bits => fnv1a (ElemKind.f64.bytes bits) 2166136261) ?_
    refine zeroed_eq (0 : UInt64) (fun x y v hv hx hy => UInt64.toNat_inj.mp ?_) hxy
    exact eq_of_floatValue (by decide) x.toNat_lt y.toNat_lt hv hx hy
  rw [grayElemHash_of_bytes h32 h64 hx, grayElemHash_of_bytes h32 h64 hy,
    (grayElemEqual_iff_bytes h32 h64 hx hy).mp hxy]

end Elements

/-! ### The rounds -/

section Rounds

variable {kind : ElemKind}

theorem GrayArray.toList_push (array : GrayArray kind) (value : kind.Value) :
    (array.push value).toList = array.toList ++ [value] := by
  change (List.range (array.len + 1)).map (update array.data array.len value) =
    (List.range array.len).map array.data ++ [value]
  rw [range_succ, map_append, map_singleton, update_self]
  refine congrArg (· ++ [value]) (map_congr_left fun i hi => ?_)
  exact update_of_ne (Nat.ne_of_lt (mem_range.mp hi)) _ _

theorem dedupCapacity_spec {bound : ℕ} (hbnd : bound ≤ 2 ^ 31) {k : ℕ} (hk : k ≤ 31) {fuel : ℕ}
    (hfuel : 31 - k < fuel) :
    ∃ k' ≤ 31, dedupCapacity bound fuel (2 ^ k) = some (2 ^ k') ∧ bound ≤ 2 ^ k' ∧ k ≤ k' := by
  induction fuel generalizing k with
  | zero => omega
  | succ fuel ih =>
    rw [dedupCapacity]
    by_cases h : 2 ^ k < bound
    · have hlt : k < 31 := (Nat.pow_lt_pow_iff_right (by decide)).mp (h.trans_le hbnd)
      have hnext : 2 ^ k * 2 % 2 ^ 32 = 2 ^ (k + 1) := by
        rw [← Nat.pow_succ]
        exact Nat.mod_eq_of_lt (Nat.pow_lt_pow_right (by decide) (by omega))
      rw [if_pos h, hnext]
      obtain ⟨k', hk', hres, hle, hmono⟩ := @ih (k + 1) hlt (by omega)
      exact ⟨k', hk', hres, hle, by omega⟩
    · exact ⟨k, hk, if_neg h, Nat.not_lt.mp h, Nat.le_refl k⟩

variable (array : SizedArray kind)

theorem SizedArray.hash_eq {i j : ℕ} (hi : i < array.len) (hj : j < array.len)
    (h : array.isEqual i j = true) : array.hash i = array.hash j :=
  congrArg UInt32.toNat (grayElemHash_congr (array.isElement i hi) (array.isElement j hj) h)

theorem SizedArray.any_firstIndices_iff {i : ℕ} (hi : i < array.len) :
    (∃ j ∈ firstIndices array.isEqual i, array.isEqual j i = true) ↔
      ∃ j < i, array.isEqual j i = true :=
  @Grayscale.any_firstIndices_iff array.isEqual i fun j k hj hk =>
    grayElemEqual_trans (array.isElement j (hj.trans hi)) (array.isElement k (hk.trans hi))
      (array.isElement i hi)

variable {array}

theorem dedupRound_spec {k fuel n : ℕ} (hn : n < array.len) (hroom : array.len < 2 ^ k)
    (hfuel : 2 ^ k ≤ fuel) {s : DedupState kind}
    (htab : HoldsFirsts s.table k array.hash (firstIndices array.isEqual n))
    (hres : s.result.toList = (firstIndices array.isEqual n).map array.data) :
    ∃ s', dedupRound array (2 ^ k) fuel n s = some s' ∧
      HoldsFirsts s'.table k array.hash (firstIndices array.isEqual (n + 1)) ∧
      s'.result.toList = (firstIndices array.isEqual (n + 1)).map array.data := by
  have hkept : ∀ j ∈ firstIndices array.isEqual n, j < n := fun j hj => (mem_firsts.mp hj).1
  have hlen : (firstIndices array.isEqual n).length < 2 ^ k :=
    (length_firsts_le n).trans_lt (hn.trans hroom)
  have hfst : array.hash n &&& (2 ^ k - 1) = array.hash n % 2 ^ k :=
    Nat.and_two_pow_sub_one_eq_mod ..
  rw [firsts_succ]
  simp only [dedupRound, hfst]
  rcases @HoldsFirsts.exists_probe _ _ _ _ htab hlen (fun j => array.isEqual j n) n
      (fun j hj hmat => array.hash_eq ((hkept j hj).trans hn) hn hmat) _ hfuel with
    ⟨slot, hprobe, j, hj, hmat⟩ | ⟨distance, hprobe, hemp, hfull, hnone⟩
  · have hany : (List.range n).any (fun j => array.isEqual j n) = true :=
      any_eq_true.mpr ⟨j, mem_range.mpr (hkept j hj), hmat⟩
    rw [hprobe, if_pos hany, append_nil]
    exact ⟨s, rfl, htab, hres⟩
  · have hany : ¬ (List.range n).any (fun j => array.isEqual j n) = true := by
      intro hany
      obtain ⟨j, hj, hmat⟩ := any_eq_true.mp hany
      obtain ⟨j', hj', hmat'⟩ := (array.any_firstIndices_iff hn).mpr ⟨j, mem_range.mp hj, hmat⟩
      rw [hnone j' hj'] at hmat'
      cases hmat'
    rw [hprobe, if_neg hany]
    refine ⟨_, rfl, htab.insert hemp hfull, ?_⟩
    rw [map_append, map_singleton, ← hres]
    exact GrayArray.toList_push _ _

theorem dedupRounds_spec {k fuel : ℕ} (hroom : array.len < 2 ^ k) (hfuel : 2 ^ k ≤ fuel)
    (memory : ℕ → kind.Value) {n : ℕ} (hn : n ≤ array.len) :
    ∃ s, dedupRounds memory array (2 ^ k) fuel n = some s ∧
      HoldsFirsts s.table k array.hash (firstIndices array.isEqual n) ∧
      s.result.toList = (firstIndices array.isEqual n).map array.data := by
  induction n with
  | zero => exact ⟨_, rfl, .empty k array.hash, rfl⟩
  | succ n ih =>
    obtain ⟨s, hs, htab, hres⟩ := ih (Nat.le_of_succ_le hn)
    rw [dedupRounds, hs]
    exact dedupRound_spec hn hroom hfuel htab hres

theorem exists_dedupCapacity (hlen : array.len ≤ 2 ^ 30) {fuel : ℕ} (hfuel : 2 ^ 31 ≤ fuel) :
    ∃ k ≤ 31, dedupCapacity (array.len * 2 % 2 ^ 32) fuel 16 = some (2 ^ k) ∧
      array.len < 2 ^ k := by
  have hbnd : array.len * 2 % 2 ^ 32 = array.len * 2 := Nat.mod_eq_of_lt (by omega)
  rw [hbnd]
  obtain ⟨k, hk, hcap, hle, hmono⟩ :=
    @dedupCapacity_spec (array.len * 2) (by omega) 4 (by decide) fuel (by omega)
  refine ⟨k, hk, hcap, ?_⟩
  have hpos := Nat.pow_le_pow_right (show 0 < 2 by decide) hmono
  omega

theorem firsts_of_le_one {isEqual : ℕ → ℕ → Bool} {n : ℕ} (hn : n ≤ 1) :
    firstIndices isEqual n = List.range n := by
  obtain rfl | rfl : n = 0 ∨ n = 1 := by omega
  · rfl
  · rfl

end Rounds

/-- The result has the elements that no earlier element is equal to, in their order. -/
structure KeepsFirsts {kind : ElemKind} (array : SizedArray kind) (result : GrayArray kind) :
    Prop where
  toList_eq : result.toList = ((List.range array.len).filter fun i =>
    !(List.range i).any fun j => array.isEqual j i).map array.data
  pairwise : result.toList.Pairwise fun x y => grayElemEqual array.elemSize kind x y = false
  sublist : result.toList.Sublist array.toList
  complete : ∀ i < array.len, array.data i ∈ result.toList ∨
    ∃ x ∈ result.toList, grayElemEqual array.elemSize kind x (array.data i) = true

theorem keepsFirsts_of_toList {kind : ElemKind} {array : SizedArray kind} {result : GrayArray kind}
    (h : result.toList = (firstIndices array.isEqual array.len).map array.data) :
    KeepsFirsts array result where
  toList_eq := h
  pairwise := by
    rw [h, pairwise_map]
    have hlt : (firstIndices array.isEqual array.len).Pairwise (· < ·) := pairwise_lt_range.filter _
    exact hlt.imp_of_mem fun _ hj hij => (mem_firsts.mp hj).2 _ hij
  sublist := by
    rw [h]
    exact filter_sublist.map _
  complete i hi := by
    rw [h]
    by_cases hfst : ∃ j < i, array.isEqual j i = true
    · obtain ⟨j, hj, heq⟩ := (array.any_firstIndices_iff hi).mpr hfst
      obtain ⟨hlt, hbef⟩ := mem_firsts.mp hj
      exact .inr ⟨array.data j, mem_map_of_mem (mem_firsts.mpr ⟨hlt.trans hi, hbef⟩), heq⟩
    · refine .inl (mem_map_of_mem (mem_firsts.mpr ⟨hi, fun j hj => ?_⟩))
      exact Bool.eq_false_iff.mpr fun heq => hfst ⟨j, hj, heq⟩

/-- The function ends and keeps the first occurrences, since the table has an empty slot in front of
every round and elements that are equal have one hash. -/
theorem grayArraysDeduplicate_firsts {kind : ElemKind} (array : SizedArray kind)
    (hlen : array.len ≤ 2 ^ 30) (memory : ℕ → kind.Value) {fuel : ℕ} (hfuel : 2 ^ 31 ≤ fuel) :
    (∃ result, grayArraysDeduplicate memory fuel array = some result ∧ KeepsFirsts array result) ∧
      (∃ capacity, dedupCapacity (array.len * 2 % 2 ^ 32) fuel 16 = some capacity ∧
        ∀ n ≤ array.len, ∃ s, dedupRounds memory array capacity fuel n = some s ∧
          ∃ slot < capacity, s.table slot = none) ∧
      ∀ i < array.len, ∀ j < array.len, array.isEqual i j = true → array.hash i = array.hash j := by
  obtain ⟨k, hk, hcap, hroom⟩ := exists_dedupCapacity hlen hfuel
  have hfuel' : 2 ^ k ≤ fuel := (Nat.pow_le_pow_right (by decide) hk).trans hfuel
  refine ⟨?_, ⟨_, hcap, fun n hn => ?_⟩, fun i hi j hj => array.hash_eq hi hj⟩
  · rw [grayArraysDeduplicate]
    by_cases h : array.len ≤ 1
    · rw [if_pos h]
      refine ⟨_, rfl, keepsFirsts_of_toList ?_⟩
      rw [firsts_of_le_one h]
      rfl
    · obtain ⟨s, hs, -, hres⟩ := dedupRounds_spec hroom hfuel' memory (Nat.le_refl array.len)
      rw [if_neg h, hcap]
      refine ⟨s.result, ?_, keepsFirsts_of_toList hres⟩
      simp only [Option.bind_eq_bind, Option.bind_some, hs]
      rfl
  · obtain ⟨s, hs, htab, -⟩ := dedupRounds_spec hroom hfuel' memory hn
    exact ⟨s, hs, htab.exists_empty
      ((length_firsts_le n).trans_lt (hn.trans_lt hroom))⟩

def byteArray : SizedArray .u8 where
  data := fun i => [(3 : UInt8), 1, 3, 2, 1].getD i 0
  len := 5
  elemSize := 1
  isElement := fun _ _ => .inr rfl

theorem grayArraysDeduplicate_bytes :
    ∃ result, @grayArraysDeduplicate .u8 (fun _ => (0 : UInt8)) (2 ^ 31) byteArray = some result ∧
      result.toList = [(3 : UInt8), 1, 2] := by
  obtain ⟨⟨result, hres, hkp⟩, -⟩ :=
    @grayArraysDeduplicate_firsts .u8 byteArray (by decide) (fun _ => (0 : UInt8)) _
      (Nat.le_refl (2 ^ 31))
  exact ⟨result, hres, hkp.toList_eq.trans rfl⟩

end Grayscale
