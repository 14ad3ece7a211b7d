import Grayscale.Library.InsertionOrder
import Grayscale.Library.Probing
import Grayscale.Util.Bytes
import Mathlib.Algebra.Ring.Int.Defs

/-!
# The hash map of the runtime

`runtime/map.c`: open addressing with linear probing, tombstones, and an array of slots in insertion
order with holes. A key is its bytes: those at the pointer for a key compared as bytes, the content
of a string key.
-/

namespace Grayscale.HashMaps

/-- FNV-1a, from a seed. -/
def hashBytes (seed : UInt64) (data : Text) : UInt64 :=
  data.foldl (fun hash byte => (hash ^^^ byte.toUInt64) * 1099511628211)
    (14695981039346656037 ^^^ seed)

/-- An occupied slot: its key, its value, and its place in the order array. -/
structure MapEntry (V : Type*) where
  key : Text
  value : V
  orderPosition : ℕ

/-- The map. The order array is listed up to `order_len`, with `none` for -1. -/
structure GrayMap (V : Type*) where
  slots : ℕ → Slot (MapEntry V)
  order : List (Option ℕ)
  count : ℕ
  capacity : ℕ

/-- A product that is kept in an `int32_t`. -/
def int32 (x : ℤ) : ℤ := x.bmod (2 ^ 32)

/-- The loop of `gray_map_round_capacity`. -/
def doubleUntil (capacity : ℤ) : ℕ → ℕ → ℕ
  | 0, powerOfTwo => powerOfTwo
  | rounds + 1, powerOfTwo =>
    if (powerOfTwo : ℤ) < capacity then doubleUntil capacity rounds (powerOfTwo * 2) else powerOfTwo

/-- `gray_map_round_capacity`: from 8 on, 27 rounds lead to `1 << 30`. -/
def grayMapRoundCapacity (capacity : ℤ) : ℕ :=
  if capacity < 8 then 8
  else if capacity > 2 ^ 30 then 2 ^ 30
  else doubleUntil capacity 27 8

section

variable {V : Type*} (seed : UInt64)

def grayMapNewKind (initialCapacity : ℤ) : GrayMap V where
  slots := fun _ => .empty
  order := []
  count := 0
  capacity := grayMapRoundCapacity initialCapacity

/-- The slots that a key is looked for in, one after the other. -/
def mapProbes (capacity : ℕ) (key : Text) : List ℕ :=
  let mask := capacity - 1
  let index := (hashBytes seed key).toNat &&& mask
  (List.range capacity).map fun i => (index + i) &&& mask

/-- `find_slot`. -/
def findSlotOf (map : GrayMap V) (key : Text) : Option ℕ :=
  findIn map.slots (fun e => e.key == key) (mapProbes seed map.capacity key)

def grayMapGet (map : GrayMap V) (key : Text) : Option V :=
  match findSlotOf seed map key with
  | none => none
  | some index =>
    match map.slots index with
    | .occupied e => some e.value
    | _ => none

def grayMapHas (map : GrayMap V) (key : Text) : Bool := (findSlotOf seed map key).isSome

/-- `map_insert_at`; `none` for a write past the end of the order array. -/
def mapInsertAt (map : GrayMap V) (slot : ℕ) (key : Text) (value : V) : Option (GrayMap V) :=
  if map.order.length < map.capacity then
    some { map with
      slots := Function.update map.slots slot (.occupied ⟨key, value, map.order.length⟩)
      order := map.order ++ [some slot]
      count := map.count + 1 }
  else none

/-- An existing key gets another value. -/
def mapUpdateAt (map : GrayMap V) (slot : ℕ) (value : V) : GrayMap V :=
  match map.slots slot with
  | .occupied e => { map with slots := Function.update map.slots slot (.occupied { e with value }) }
  | _ => map

/-- The loop of `map_rebuild` over the old order array. -/
def mapReinsert (set : GrayMap V → Text → V → Option (GrayMap V)) (old : ℕ → Slot (MapEntry V)) :
    List (Option ℕ) → GrayMap V → Option (GrayMap V)
  | [], map => some map
  | none :: order, map => mapReinsert set old order map
  | some slot :: order, map =>
    match old slot with
    | .occupied e => (set map e.key e.value).bind (mapReinsert set old order)
    | _ => mapReinsert set old order map

/-- `map_rebuild`, with the function that sets a key. -/
def mapRebuild (set : GrayMap V → Text → V → Option (GrayMap V)) (map : GrayMap V)
    (newCapacity : ℤ) : Option (GrayMap V) :=
  mapReinsert set map.slots map.order (grayMapNewKind newCapacity)

/-- The load factor is reached. The products are those of `int32_t`. -/
def isLoaded (map : GrayMap V) : Prop := int32 (map.capacity * 3) ≤ int32 (map.count * 4)

instance (map : GrayMap V) : Decidable (isLoaded map) := by
  unfold isLoaded
  infer_instance

/-- The probing of `gray_map_set`. -/
def mapPlace (map : GrayMap V) (key : Text) (value : V) : Option (GrayMap V) :=
  match placeIn map.slots (fun e => e.key == key) (mapProbes seed map.capacity key) none with
  | .update slot => some (mapUpdateAt map slot value)
  | .insert slot => mapInsertAt map slot key value
  | .nowhere => some map

/-- `gray_map_set` outside a `for_each`; fuel bounds the nesting of rebuilds. -/
def grayMapSet : ℕ → GrayMap V → Text → V → Option (GrayMap V)
  | 0, _, _, _ => none
  | fuel + 1, map, key, value =>
    (if isLoaded map then mapRebuild (grayMapSet fuel) map (int32 (map.capacity * 2))
      else some map).bind fun map =>
    (if map.capacity ≤ map.order.length then mapRebuild (grayMapSet fuel) map map.capacity
      else some map).bind fun map =>
    mapPlace seed map key value

/-- `gray_map_remove` outside a `for_each`, with its answer. -/
def grayMapRemove (map : GrayMap V) (key : Text) : GrayMap V × Bool :=
  match findSlotOf seed map key with
  | none => (map, false)
  | some index =>
    match map.slots index with
    | .occupied e =>
      ({ map with
          slots := Function.update map.slots index .tombstone
          order := if map.order[e.orderPosition]? = some (some index) then
            map.order.set e.orderPosition none else map.order
          count := map.count - 1 }, true)
    | _ => (map, false)

/-- `gray_map_clear` outside a `for_each`. -/
def grayMapClear (map : GrayMap V) : GrayMap V :=
  { map with slots := fun _ => .empty, order := [], count := 0 }

/-- `gray_map_copy`: the slots of the table and its fields. -/
def grayMapCopy (source : GrayMap V) : GrayMap V :=
  { source with slots := fun i => if i < source.capacity then source.slots i else .empty }

end

namespace GrayMap

variable {V : Type*}

/-- The entry of a place in the order array. -/
def entryAt (map : GrayMap V) (place : Option ℕ) : Option (Text × V) := place.bind fun slot =>
    match map.slots slot with
    | .occupied e => some (e.key, e.value)
    | _ => none

/-- The entries along the order array, its holes skipped. -/
def entries (map : GrayMap V) : List (Text × V) := map.order.filterMap map.entryAt

end GrayMap

end Grayscale.HashMaps
