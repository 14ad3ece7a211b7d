import Grayscale.Library.GuardedRun
import Mathlib.Algebra.BigOperators.Group.List.Basic
import Mathlib.Algebra.Ring.Nat
import Mathlib.Algebra.Order.Group.Nat
import Mathlib.Data.List.GetD

/-!
# The blocks of an arena

Allocation, reset and scope marks of an arena. An allocation that does not fit the current block
makes a new one and links it behind the current block; a reset and the end of a scope go back to an
earlier block and leave the later ones linked.
-/

namespace Grayscale.Arenas

open List

/-- `GrayArenaBlock`, without its data. -/
structure Block where
  next : Option ℕ
  size : ℕ
  used : ℕ
  deriving DecidableEq

/-- `GrayArena`, with the blocks that `malloc` returned and that are not freed. -/
structure Arena where
  blocks : List Block
  first : ℕ
  current : ℕ
  defaultBlockSize : ℕ
  maximumBytes : ℕ
  totalAllocated : ℕ
  peakBytes : ℕ
  allocCount : ℕ
  resetCount : ℕ
  deriving DecidableEq

/-- `GrayScopeMark`. -/
structure ScopeMark where
  block : ℕ
  used : ℕ
  deriving DecidableEq

/-- An arena and the marks of the scopes that are open, the innermost first. -/
structure Session where
  arena : Arena
  marks : List ScopeMark
  deriving DecidableEq

def Arena.block (arena : Arena) (address : ℕ) : Block := arena.blocks.getD address ⟨none, 0, 0⟩

/-- `ALIGN_UP(size, 8)` on `size_t`. -/
def alignUp8 (size : ℕ) : ℕ := (size + 7) % 2 ^ 64 / 8 * 8

/-- `sizeof(GrayArenaBlock)`. -/
def blockHeader : ℕ := 24

def cappedArenaCreate (initialSize cap : ℕ) : Arena where
  blocks := [⟨none, initialSize, 0⟩]
  first := 0
  current := 0
  defaultBlockSize := initialSize
  maximumBytes := cap
  totalAllocated := initialSize
  peakBytes := initialSize
  allocCount := 0
  resetCount := 0

/-- The aligned size does not fit the current block. -/
def Arena.grows (arena : Arena) (size : ℕ) : Prop :=
  let current := arena.block arena.current
  (current.size + 2 ^ 64 - current.used) % 2 ^ 64 < alignUp8 size

instance (arena : Arena) (size : ℕ) : Decidable (arena.grows size) :=
  inferInstanceAs (Decidable (_ < _))

/-- The size of the block that an allocation makes. -/
def Arena.blockSize (arena : Arena) (size : ℕ) : ℕ :=
  if arena.defaultBlockSize < alignUp8 size then alignUp8 size else arena.defaultBlockSize

/-- `gray_arena_alloc_uninitialized`; `granted` is the answer of `malloc`. -/
def Arena.alloc (arena : Arena) (size : ℕ) (granted : Bool) : Option Arena :=
  let total := (arena.totalAllocated + arena.blockSize size) % 2 ^ 64
  if arena.grows size then
    -- P0104
    if 0 < arena.maximumBytes ∧ arena.maximumBytes < total then none
    -- The program exits; a size that wraps leaves no room for the header that is written.
    else if granted = false ∨ 2 ^ 64 ≤ blockHeader + arena.blockSize size then none
    else some
      { arena with
        blocks := arena.blocks.modify arena.current
          (fun block => { block with next := some arena.blocks.length }) ++
            [⟨none, arena.blockSize size, alignUp8 size⟩]
        current := arena.blocks.length
        totalAllocated := total
        peakBytes := if arena.peakBytes < total then total else arena.peakBytes
        allocCount := arena.allocCount + 1 }
  else some
    { arena with
      blocks := arena.blocks.modify arena.current
        (fun block => { block with used := (block.used + alignUp8 size) % 2 ^ 64 })
      allocCount := arena.allocCount + 1 }

/-- The blocks from an address on, along `next`. -/
def walk (blocks : List Block) : ℕ → Option ℕ → List ℕ
  | fuel + 1, some address =>
    address :: walk blocks fuel (blocks.getD address ⟨none, 0, 0⟩).next
  | _, _ => []

/-- `used` is zero in each of the blocks. -/
def clearUsed (blocks : List Block) (addresses : List ℕ) : List Block :=
  addresses.foldl (fun blocks a => blocks.modify a fun block => { block with used := 0 }) blocks

/-- `gray_arena_reset`. -/
def Arena.reset (arena : Arena) : Arena := { arena with
    blocks := clearUsed arena.blocks (walk arena.blocks arena.blocks.length (some arena.first))
    current := arena.first
    totalAllocated := (arena.block arena.first).size
    resetCount := arena.resetCount + 1 }

def Arena.scopeSave (arena : Arena) : ScopeMark := ⟨arena.current, (arena.block arena.current).used⟩

def Arena.scopeRestore (arena : Arena) (mark : ScopeMark) : Arena := { arena with
    blocks := (clearUsed arena.blocks
      (walk arena.blocks arena.blocks.length (arena.block mark.block).next)).modify mark.block
        fun block => { block with used := mark.used }
    current := mark.block }

/-- The blocks that `gray_arena_destroy` frees. -/
def Arena.freed (arena : Arena) : List ℕ := walk arena.blocks arena.blocks.length (some arena.first)

/-- A call. -/
inductive Op
  | alloc (size : ℕ) (granted : Bool)
  | reset
  | save
  | restore
  deriving DecidableEq

/-- One call; a scope that ends is the innermost one. -/
def step (s : Session) : Op → Option Session
  | .alloc size granted => (s.arena.alloc size granted).map fun arena => { s with arena := arena }
  | .reset => some { s with arena := s.arena.reset }
  | .save => some { s with marks := s.arena.scopeSave :: s.marks }
  | .restore =>
    match s.marks with
    | mark :: marks => some ⟨s.arena.scopeRestore mark, marks⟩
    | [] => none

/-- A block is reached from the first one along `next`. -/
inductive Reachable (arena : Arena) : ℕ → Prop
  | first : Reachable arena arena.first
  | next {a b : ℕ} (h : Reachable arena a) (hnext : (arena.block a).next = some b) :
      Reachable arena b

def Arena.bytes (arena : Arena) : ℕ := (arena.blocks.map Block.size).sum

/-- No block is lost, the bytes are counted, and the cap holds. -/
structure Accounted (initialSize : ℕ) (s : Session) : Prop where
  reachable : ∀ a < s.arena.blocks.length, Reachable s.arena a
  freed : s.arena.freed.Perm (List.range s.arena.blocks.length)
  total : s.arena.totalAllocated = s.arena.bytes
  cap : 0 < s.arena.maximumBytes → initialSize ≤ s.arena.maximumBytes →
    s.arena.bytes ≤ s.arena.maximumBytes

/-- The condition: a block is made only where no block stands behind the current one and the bytes
fit a `size_t`; a reset is made only while there is one block. -/
def Meets (s : Session) : Op → Prop
  | .alloc size _ => s.arena.grows size → (s.arena.block s.arena.current).next = none ∧
      s.arena.totalAllocated + s.arena.blockSize size < 2 ^ 64
  | .reset => (s.arena.block s.arena.first).next = none
  | .save | .restore => True

instance (s : Session) (op : Op) : Decidable (Meets s op) := by
  cases op <;> unfold Meets <;> infer_instance

/-! ### Blocks -/

variable (blocks : List Block)

theorem getD_modify (f : Block → Block) (i a : ℕ) (d : Block)
    (ha : a < blocks.length) :
    (blocks.modify i f).getD a d = if i = a then f (blocks.getD a d) else blocks.getD a d := by
  rw [getD_eq_getElem?_getD, getD_eq_getElem?_getD, getElem?_modify, getElem?_eq_getElem ha]
  split_ifs <;> rfl

def shape (blocks : List Block) : List (Option ℕ × ℕ) := blocks.map fun b => (b.next, b.size)

theorem shape_modify (g : Block → ℕ) (i : ℕ) :
    shape (blocks.modify i fun b => { b with used := g b }) = shape blocks := by
  induction blocks generalizing i with
  | nil => cases i <;> rfl
  | cons b blocks ih =>
    cases i with
    | zero => rfl
    | succ i =>
      rw [modify_succ_cons]
      exact congrArg ((b.next, b.size) :: ·) (ih i)

theorem shape_clearUsed (addresses : List ℕ) :
    shape (clearUsed blocks addresses) = shape blocks := by
  induction addresses generalizing blocks with
  | nil => rfl
  | cons a addresses ih =>
    exact (ih _).trans (shape_modify blocks (fun _ => 0) a)

section Shape

variable {blocks blocks' : List Block} (h : shape blocks = shape blocks')
include h

theorem length_of_shape : blocks.length = blocks'.length := by
  have := congrArg List.length h
  rwa [shape, shape, length_map, length_map] at this

theorem sizes_of_shape : blocks.map Block.size = blocks'.map Block.size := by
  have := congrArg (List.map Prod.snd) h
  rwa [shape, shape, map_map, map_map] at this

theorem getD_of_shape (a : ℕ) :
    (blocks.getD a ⟨none, 0, 0⟩).next = (blocks'.getD a ⟨none, 0, 0⟩).next ∧
      (blocks.getD a ⟨none, 0, 0⟩).size = (blocks'.getD a ⟨none, 0, 0⟩).size := by
  have hget := congrArg (fun l => l.getD a (none, 0)) h
  have hmap : ∀ l : List Block, (shape l).getD a (none, 0) =
      ((l.getD a ⟨none, 0, 0⟩).next, (l.getD a ⟨none, 0, 0⟩).size) := fun l =>
    getD_map l ⟨none, 0, 0⟩ fun b => (b.next, b.size)
  rw [hmap, hmap] at hget
  exact Prod.ext_iff.mp hget

end Shape

theorem block_grown (current : ℕ) (x : Block) (a : ℕ) :
    ((blocks.modify current fun b => { b with next := some blocks.length }) ++ [x]).getD a
        ⟨none, 0, 0⟩ =
      if a < blocks.length then
        if current = a then { blocks.getD a ⟨none, 0, 0⟩ with next := some blocks.length }
        else blocks.getD a ⟨none, 0, 0⟩
      else if a = blocks.length then x else ⟨none, 0, 0⟩ := by
  by_cases ha : a < blocks.length
  · rw [if_pos ha, getD_append _ _ _ _ (by rwa [length_modify]), getD_modify _ _ _ _ _ ha]
  · rw [if_neg ha, getD_append_right _ _ _ _ (by rw [length_modify]; omega), length_modify]
    split_ifs with heq
    · rw [heq, Nat.sub_self]
      rfl
    · exact getD_eq_default _ _ (by simp only [length_singleton]; omega)

/-! ### The order of the blocks -/

/-- Blocks are linked in the order in which they were made. -/
structure Ordered (s : Session) : Prop where
  next : ∀ a < s.arena.blocks.length, ∀ b, (s.arena.block a).next = some b →
    a < b ∧ b < s.arena.blocks.length
  first : s.arena.first < s.arena.blocks.length
  current : s.arena.current < s.arena.blocks.length
  marks : ∀ mark ∈ s.marks, mark.block < s.arena.blocks.length

theorem Ordered.of_shape {s t : Session} (h : Ordered s)
    (hsh : shape t.arena.blocks = shape s.arena.blocks) (hfst : t.arena.first = s.arena.first)
    (hcur : t.arena.current < s.arena.blocks.length)
    (hmarks : ∀ mark ∈ t.marks, mark.block < s.arena.blocks.length) : Ordered t := by
  have hlen := length_of_shape hsh
  refine ⟨fun a ha b hb => ?_, ?_, ?_, fun mark hmark => ?_⟩
  · rw [hlen] at ha ⊢
    exact h.next a ha b ((getD_of_shape hsh a).1.symm.trans hb)
  · rw [hlen, hfst]
    exact h.first
  · rw [hlen]
    exact hcur
  · rw [hlen]
    exact hmarks mark hmark

theorem alloc_cases {arena result : Arena} {size : ℕ} {granted : Bool}
    (h : arena.alloc size granted = some result) : (¬ arena.grows size ∧ result = { arena with
      blocks := arena.blocks.modify arena.current
        (fun block => { block with used := (block.used + alignUp8 size) % 2 ^ 64 })
      allocCount := arena.allocCount + 1 }) ∨ arena.grows size ∧ ¬ (0 < arena.maximumBytes ∧
        arena.maximumBytes < (arena.totalAllocated + arena.blockSize size) % 2 ^ 64) ∧
      result.blocks = arena.blocks.modify arena.current
          (fun block => { block with next := some arena.blocks.length }) ++
            [⟨none, arena.blockSize size, alignUp8 size⟩] ∧
      result.first = arena.first ∧ result.current = arena.blocks.length ∧
      result.totalAllocated = (arena.totalAllocated + arena.blockSize size) % 2 ^ 64 ∧
      result.maximumBytes = arena.maximumBytes := by
  rw [Arena.alloc] at h
  by_cases hgro : arena.grows size
  · right
    rw [if_pos hgro] at h
    by_cases hcap : 0 < arena.maximumBytes ∧
      arena.maximumBytes < (arena.totalAllocated + arena.blockSize size) % 2 ^ 64
    · rw [if_pos hcap] at h
      cases h
    · rw [if_neg hcap] at h
      by_cases hmalloc : granted = false ∨ 2 ^ 64 ≤ blockHeader + arena.blockSize size
      · rw [if_pos hmalloc] at h
        cases h
      · rw [if_neg hmalloc] at h
        cases h
        exact ⟨hgro, hcap, rfl, rfl, rfl, rfl, rfl⟩
  · left
    rw [if_neg hgro] at h
    cases h
    exact ⟨hgro, rfl⟩

theorem Ordered.step {s t : Session} {op : Op} (h : Ordered s) (hstep : step s op = some t) :
    Ordered t := by
  cases op with
  | alloc size granted =>
    obtain ⟨arena, har, rfl⟩ := Option.map_eq_some_iff.mp hstep
    rcases alloc_cases har with ⟨-, rfl⟩ | ⟨-, -, hblocks, hfst, hcurrent, -, -⟩
    · exact h.of_shape (shape_modify _ (fun b => (b.used + alignUp8 size) % 2 ^ 64) _) rfl h.current
        h.marks
    · have hlen : arena.blocks.length = s.arena.blocks.length + 1 := by
        rw [hblocks, length_append, length_modify, length_singleton]
      have hcurrentLt := h.current
      refine ⟨fun a ha b hb => ?_, ?_, ?_, fun mark hmark => ?_⟩
      · have hnext : (({ s with arena := arena } : Session).arena.block a).next = some b := hb
        change (arena.blocks.getD a _).next = some b at hnext
        rw [hblocks, block_grown] at hnext
        change a < b ∧ b < arena.blocks.length
        rw [hlen]
        split_ifs at hnext with ha' hcur
        · cases hnext
          omega
        · have := h.next a ha' b hnext
          omega
      · change arena.first < arena.blocks.length
        rw [hfst, hlen]
        exact Nat.lt_succ_of_lt h.first
      · change arena.current < arena.blocks.length
        rw [hcurrent, hlen]
        exact Nat.lt_succ_self _
      · change mark.block < arena.blocks.length
        rw [hlen]
        exact Nat.lt_succ_of_lt (h.marks mark hmark)
  | reset =>
    cases hstep
    exact h.of_shape (shape_clearUsed _ _) rfl h.first h.marks
  | save =>
    cases hstep
    refine h.of_shape rfl rfl h.current fun mark hmark => ?_
    rcases mem_cons.mp hmark with rfl | hmark
    · exact h.current
    · exact h.marks mark hmark
  | restore =>
    rw [Arenas.step] at hstep
    cases hmarks : s.marks with
    | nil =>
      rw [hmarks] at hstep
      cases hstep
    | cons mark marks =>
      rw [hmarks] at hstep
      cases hstep
      have hmem : ∀ m ∈ mark :: marks, m.block < s.arena.blocks.length := hmarks ▸ h.marks
      exact h.of_shape ((shape_modify _ (fun _ => mark.used) _).trans (shape_clearUsed _ _)) rfl
        (hmem mark (mem_cons_self ..)) fun m hm => hmem m (mem_cons_of_mem mark hm)

/-! ### The chain of the blocks -/

/-- The blocks make one chain, their bytes are counted, and the cap holds. -/
structure Linked (initialSize : ℕ) (s : Session) : Prop extends Ordered s where
  first_eq : s.arena.first = 0
  next_eq : ∀ a < s.arena.blocks.length,
    (s.arena.block a).next = if a + 1 < s.arena.blocks.length then some (a + 1) else none
  positive : ∀ a < s.arena.blocks.length, 0 < a → 0 < (s.arena.block a).size
  total_eq : s.arena.totalAllocated = s.arena.bytes
  cap : 0 < s.arena.maximumBytes → initialSize ≤ s.arena.maximumBytes →
    s.arena.bytes ≤ s.arena.maximumBytes

theorem Linked.create (initialSize cap : ℕ) :
    Linked initialSize ⟨cappedArenaCreate initialSize cap, []⟩ where
  next a ha b hb := by
    have : a = 0 := Nat.lt_one_iff.mp ha
    subst this
    cases hb
  first := Nat.one_pos
  current := Nat.one_pos
  marks := fun mark hmark => absurd hmark not_mem_nil
  first_eq := rfl
  next_eq a ha := by
    have : a = 0 := Nat.lt_one_iff.mp ha
    subst this
    rfl
  positive a ha hpos := absurd (Nat.lt_one_iff.mp ha) hpos.ne'
  total_eq := rfl
  cap _ h := h

section Chain

variable {initialSize : ℕ} {s : Session}

theorem Linked.reachable (h : Linked initialSize s) {a : ℕ} (ha : a < s.arena.blocks.length) :
    Reachable s.arena a := by
  induction a with
  | zero =>
    rw [← h.first_eq]
    exact .first
  | succ a ih =>
    refine .next (ih (by omega)) ?_
    rw [h.next_eq a (by omega), if_pos ha]

theorem Linked.walk_eq (h : Linked initialSize s) {fuel a : ℕ}
    (ha : a + (fuel + 1) = s.arena.blocks.length) :
    walk s.arena.blocks (fuel + 1) (some a) = List.range' a (fuel + 1) := by
  induction fuel generalizing a with
  | zero => rfl
  | succ fuel ih =>
    have hnext := h.next_eq a (by omega)
    rw [if_pos (by omega)] at hnext
    rw [walk, List.range'_succ, show (s.arena.blocks.getD a ⟨none, 0, 0⟩).next = _ from hnext,
      ih (by omega)]

theorem Linked.accounted (h : Linked initialSize s) : Accounted initialSize s where
  reachable _ ha := h.reachable ha
  freed := by
    have hpos := h.first
    obtain ⟨n, hn⟩ : ∃ n, s.arena.blocks.length = n + 1 := ⟨s.arena.blocks.length - 1, by omega⟩
    rw [Arena.freed, h.first_eq, hn, h.walk_eq (by omega), range_eq_range']
  total := h.total_eq
  cap := h.cap

variable {t : Session}

theorem Linked.of_shape (h : Linked initialSize s) (hord : Ordered t)
    (hsh : shape t.arena.blocks = shape s.arena.blocks) (hfst : t.arena.first = s.arena.first)
    (htot : t.arena.totalAllocated = s.arena.totalAllocated)
    (hmax : t.arena.maximumBytes = s.arena.maximumBytes) : Linked initialSize t := by
  have hlen := length_of_shape hsh
  have hbyt : t.arena.bytes = s.arena.bytes := congrArg List.sum (sizes_of_shape hsh)
  refine { hord with
    first_eq := hfst.trans h.first_eq, next_eq := fun a ha => ?_, positive := fun a ha hpos => ?_,
    total_eq := ?_, cap := ?_ }
  · rw [hlen] at ha ⊢
    exact (getD_of_shape hsh a).1.trans (h.next_eq a ha)
  · rw [hlen] at ha
    exact (h.positive a ha hpos).trans_eq (getD_of_shape hsh a).2.symm
  · rw [htot, hbyt]
    exact h.total_eq
  · rw [hmax, hbyt]
    exact h.cap

theorem bytes_grown {blocks : List Block} {x : Block} (current : ℕ) :
    (((blocks.modify current fun b => { b with next := some blocks.length }) ++ [x]).map
      Block.size).sum = (blocks.map Block.size).sum + x.size := by
  have hsizes : (blocks.modify current fun b => { b with next := some blocks.length }).map
      Block.size = blocks.map Block.size := by
    generalize some blocks.length = link
    induction blocks generalizing current with
    | nil => cases current <;> rfl
    | cons b blocks ih =>
      cases current with
      | zero => rfl
      | succ current =>
        rw [modify_succ_cons]
        exact congrArg (b.size :: ·) (ih current)
  rw [map_append, hsizes, sum_append]
  rfl

theorem Linked.grow {arena : Arena} {size : ℕ} {granted : Bool} (h : Linked initialSize s)
    (har : s.arena.alloc size granted = some arena)
    (hmt : Meets s (.alloc size granted)) : Linked initialSize { s with arena := arena } := by
  have hord : Ordered { s with arena := arena } :=
    h.toOrdered.step (show step s (.alloc size granted) = _ by rw [Arenas.step, har]; rfl)
  rcases alloc_cases har with
    ⟨-, rfl⟩ | ⟨hgro, hcap, hblocks, hfst, hcurrent, htot, hmaximum⟩
  · exact h.of_shape hord (shape_modify _ (fun b => (b.used + alignUp8 size) % 2 ^ 64) _) rfl
      rfl rfl
  · obtain ⟨hnext, hfits⟩ := hmt hgro
    rw [Nat.mod_eq_of_lt hfits] at hcap htot
    have hlen : arena.blocks.length = s.arena.blocks.length + 1 := by
      rw [hblocks, length_append, length_modify, length_singleton]
    have hlast : s.arena.current + 1 = s.arena.blocks.length := by
      have hcurrentLt := h.current
      by_contra hne
      rw [h.next_eq _ hcurrentLt, if_pos (by omega)] at hnext
      cases hnext
    have hbyt : arena.bytes = s.arena.bytes + s.arena.blockSize size := by
      rw [Arena.bytes, hblocks, bytes_grown]
      rfl
    have hsize : 0 < s.arena.blockSize size := by
      have : 0 < alignUp8 size := (Nat.zero_le _).trans_lt hgro
      rw [Arena.blockSize]
      split_ifs <;> omega
    refine { hord with
      first_eq := hfst.trans h.first_eq, next_eq := fun a ha => ?_,
      positive := fun a ha hpos => ?_, total_eq := ?_, cap := fun hmax hinit => ?_ }
    · change (arena.blocks.getD a _).next = if a + 1 < arena.blocks.length then _ else _
      change a < arena.blocks.length at ha
      rw [hlen] at ha ⊢
      rw [hblocks, block_grown]
      by_cases ha' : a < s.arena.blocks.length
      · have hold := h.next_eq a ha'
        rw [if_pos ha', if_pos (show a + 1 < s.arena.blocks.length + 1 by omega)]
        by_cases hcur : s.arena.current = a
        · rw [if_pos hcur]
          exact congrArg some (by omega)
        · rw [if_neg hcur]
          exact hold.trans (if_pos (by omega))
      · rw [if_neg ha', if_pos (by omega), if_neg (by omega)]
    · change 0 < (arena.blocks.getD a _).size
      change a < arena.blocks.length at ha
      rw [hlen] at ha
      rw [hblocks, block_grown]
      by_cases ha' : a < s.arena.blocks.length
      · have hold := h.positive a ha' hpos
        rw [if_pos ha']
        split_ifs
        · exact hold
        · exact hold
      · rw [if_neg ha', if_pos (by omega)]
        exact hsize
    · change arena.totalAllocated = arena.bytes
      rw [htot, hbyt, h.total_eq]
    · change arena.bytes ≤ arena.maximumBytes
      change 0 < arena.maximumBytes at hmax
      rw [hmaximum] at hmax ⊢
      rw [hbyt, ← h.total_eq]
      exact not_lt.mp fun hlt => hcap ⟨hmax, hlt⟩

theorem Linked.keep {op : Op} (h : Linked initialSize s) (hstep : step s op = some t)
    (hmt : Meets s op) : Linked initialSize t := by
  have hord := h.toOrdered.step hstep
  cases op with
  | alloc size granted =>
    obtain ⟨arena, har, rfl⟩ := Option.map_eq_some_iff.mp hstep
    exact h.grow har hmt
  | reset =>
    cases hstep
    refine h.of_shape hord (shape_clearUsed _ _) rfl ?_ rfl
    -- there is one block
    have hone : s.arena.blocks.length = 1 := by
      have hfst := h.first
      rw [Meets, h.next_eq _ hfst, h.first_eq] at hmt
      rw [h.first_eq] at hfst
      by_contra hne
      rw [if_pos (by omega)] at hmt
      cases hmt
    obtain ⟨b, hb⟩ := length_eq_one_iff.mp hone
    change (s.arena.block s.arena.first).size = s.arena.totalAllocated
    rw [h.total_eq, h.first_eq, Arena.block, Arena.bytes, hb]
    exact (Nat.add_zero _).symm
  | save =>
    cases hstep
    exact h.of_shape hord rfl rfl rfl rfl
  | restore =>
    rw [Arenas.step] at hstep
    cases hmarks : s.marks with
    | nil =>
      rw [hmarks] at hstep
      cases hstep
    | cons mark marks =>
      rw [hmarks] at hstep
      cases hstep
      exact h.of_shape hord
        ((shape_modify _ (fun _ => mark.used) _).trans (shape_clearUsed _ _)) rfl rfl rfl

theorem Linked.lost {arena : Arena} (h : Linked initialSize s) {x : Block} (hx : x.next = none)
    (hblocks : arena.blocks = s.arena.blocks.modify s.arena.current
      (fun block => { block with next := some s.arena.blocks.length }) ++ [x])
    (hfst : arena.first = s.arena.first) (hlast : s.arena.current + 1 < s.arena.blocks.length) :
    ¬ Reachable arena (s.arena.current + 1) := by
  have hcls : ∀ a, Reachable arena a → a ≤ s.arena.current ∨ a = s.arena.blocks.length := by
    intro a ha
    induction ha with
    | first =>
      rw [hfst, h.first_eq]
      exact .inl (Nat.zero_le _)
    | @next a b _ hnext ih =>
      rw [Arena.block, hblocks, block_grown] at hnext
      rcases ih with hle | heq
      · rw [if_pos (by omega)] at hnext
        split_ifs at hnext with hcur
        · exact .inr (Option.some.inj hnext).symm
        · have hold := h.next_eq a (by omega)
          rw [if_pos (by omega)] at hold
          have := hold.symm.trans hnext
          cases this
          exact .inl (by omega)
      · rw [if_neg (by omega), if_pos heq, hx] at hnext
        cases hnext
  intro hreach
  have := hcls _ hreach
  omega

theorem Linked.broken {op : Op} (h : Linked initialSize s)
    (hstep : step s op = some t) (hmt : ¬ Meets s op) : ¬ Accounted initialSize t := by
  intro haccounted
  cases op with
  | alloc size granted =>
    obtain ⟨arena, har, rfl⟩ := Option.map_eq_some_iff.mp hstep
    rcases alloc_cases har with ⟨hfits, -⟩ | ⟨hgro, -, hblocks, hfst, -, htot, -⟩
    · exact hmt fun hgro => absurd hgro hfits
    · have hlen : arena.blocks.length = s.arena.blocks.length + 1 := by
        rw [hblocks, length_append, length_modify, length_singleton]
      have hcur := h.current
      by_cases hlast : s.arena.current + 1 < s.arena.blocks.length
      · refine h.lost rfl hblocks hfst hlast (haccounted.reachable _ ?_)
        change _ < arena.blocks.length
        omega
      · -- the count wraps
        have hwraps : 2 ^ 64 ≤ s.arena.totalAllocated + s.arena.blockSize size := by
          by_contra hlt
          refine hmt fun _ => ⟨?_, not_le.mp hlt⟩
          rw [h.next_eq _ hcur, if_neg hlast]
        have hbyt : arena.bytes = s.arena.bytes + s.arena.blockSize size := by
          rw [Arena.bytes, hblocks, bytes_grown]
          rfl
        have hcnt : arena.totalAllocated = arena.bytes := haccounted.total
        rw [htot, hbyt, h.total_eq] at hcnt
        rw [h.total_eq] at hwraps
        omega
  | reset =>
    cases hstep
    have hfst := h.first
    have hsnd : 1 < s.arena.blocks.length := by
      by_contra hle
      refine hmt ?_
      rw [Meets, h.next_eq _ hfst, h.first_eq, if_neg (by omega)]
    have hcnt : (s.arena.block s.arena.first).size = s.arena.reset.bytes := haccounted.total
    have hbyt : s.arena.reset.bytes = s.arena.bytes :=
      congrArg List.sum (sizes_of_shape (shape_clearUsed _ _))
    have hpositive := h.positive 1 hsnd Nat.one_pos
    rw [hbyt, h.first_eq, Arena.block, Arena.bytes] at hcnt
    rw [Arena.block] at hpositive
    match hlist : s.arena.blocks, hsnd with
    | a :: b :: rest, _ =>
      rw [hlist] at hcnt hpositive
      simp only [getD_cons_zero, getD_cons_succ, map_cons, sum_cons] at *
      omega
  | save => exact hmt trivial
  | restore => exact hmt trivial

end Chain

/-- In a run of calls, every block stays reachable, the bytes are counted and the cap holds, if and
only if each call meets the condition. -/
theorem accounted_iff_meets (initialSize maximumBytes : ℕ) (ops : List Op) :
    GuardedRun.AllStates step (Accounted initialSize)
        ⟨cappedArenaCreate initialSize maximumBytes, []⟩ ops ↔
      GuardedRun.AllSteps step Meets ⟨cappedArenaCreate initialSize maximumBytes, []⟩ ops :=
  GuardedRun.allStates_iff (fun _ h => Linked.accounted h)
    (fun _ _ _ h hstep hmeets => Linked.keep h hstep hmeets)
    (fun _ _ _ h hstep hmeets => Linked.broken h hstep hmeets)
    (Linked.create initialSize maximumBytes) ops

/-- An allocation that makes a second block, a reset, and an allocation that makes a third: the
second is not freed any more. -/
theorem not_accounted_after_reset :
    ¬ ∀ (initialSize maximumBytes : ℕ) (ops : List Op), GuardedRun.AllStates step
      (Accounted initialSize) ⟨cappedArenaCreate initialSize maximumBytes, []⟩ ops := by
  intro h
  have hrun := h 64 0 [.alloc 100 true, .reset, .alloc 100 true]
  have hfst := hrun.2 ⟨⟨[⟨some 1, 64, 0⟩, ⟨none, 104, 104⟩], 0, 1, 64, 0, 168, 168, 1, 0⟩, []⟩
    (by decide)
  have hreset := hfst.2 ⟨⟨[⟨some 1, 64, 0⟩, ⟨none, 104, 0⟩], 0, 0, 64, 0, 64, 168, 1, 1⟩, []⟩
    (by decide)
  have hsnd := hreset.2 ⟨⟨[⟨some 2, 64, 0⟩, ⟨none, 104, 0⟩, ⟨none, 104, 104⟩], 0, 2, 64, 0, 168,
    168, 2, 1⟩, []⟩ (by decide)
  exact absurd hsnd.freed (by decide)

end Grayscale.Arenas
