import Grayscale.Library.Sorting

/-!
# The introsort of arrays

`GRAY_DEFINE_INTROSORT`: a quicksort with the median of three as the pivot and Hoare's partition, an
insertion sort for short ranges, and a heapsort when the depth limit is reached. Every function
takes the memory `values` and gives the memory after it; `none` is a read or a write outside of the
`count` elements.
-/

namespace Grayscale

variable {α : Type}

/-- A read of `values[i]`. -/
def readElement (count : ℕ) (values : ℕ → α) (i : ℕ) : Option α :=
  if i < count then some (values i) else none

/-- A write of `values[i]`. -/
def writeElement (count : ℕ) (values : ℕ → α) (i : ℕ) (x : α) : Option (ℕ → α) :=
  if i < count then some (Function.update values i x) else none

/-- `swap = values[i]; values[i] = values[j]; values[j] = swap;`. -/
def swapAt (count : ℕ) (values : ℕ → α) (i j : ℕ) : Option (ℕ → α) := do
  let swap ← readElement count values i
  let other ← readElement count values j
  let values ← writeElement count values i other
  writeElement count values j swap

section

variable (less : α → α → Bool) (count : ℕ)

/-! ### Insertion sort -/

/-- The inner loop of `gray_sort_insertion`, and the write after it, from the place `j + 1`. -/
def insertionShift (low : ℕ) (current : α) : ℕ → (ℕ → α) → Option (ℕ → α)
  | 0, values => writeElement count values 0 current
  | j + 1, values =>
    if low ≤ j then do
      let value ← readElement count values j
      if less current value then
        let values ← writeElement count values (j + 1) value
        insertionShift low current j values
      else writeElement count values (j + 1) current
    else writeElement count values (j + 1) current

/-- The outer loop of `gray_sort_insertion`. -/
def insertionLoop (low high i : ℕ) (values : ℕ → α) : Option (ℕ → α) :=
  if i ≤ high then do
    let current ← readElement count values i
    let values ← insertionShift less count low current i values
    insertionLoop low high (i + 1) values
  else some values
termination_by high + 1 - i

def graySortInsertion (low high : ℕ) (values : ℕ → α) : Option (ℕ → α) :=
  insertionLoop less count low high (low + 1) values

/-! ### Heapsort -/

def isSecondChild (low size child : ℕ) (values : ℕ → α) : Option Bool :=
  if child + 1 < size then do
    let first ← readElement count values (low + child)
    let second ← readElement count values (low + child + 1)
    some (less first second)
  else some false

def graySortSift (low size i : ℕ) (values : ℕ → α) : Option (ℕ → α) :=
  if size ≤ 2 * i + 1 then some values
  else do
    let isSecond ← isSecondChild less count low size (2 * i + 1) values
    let child := 2 * i + 1 + isSecond.toNat
    let parentValue ← readElement count values (low + i)
    let childValue ← readElement count values (low + child)
    if less parentValue childValue then
      let values ← swapAt count values (low + i) (low + child)
      graySortSift low size child values
    else some values
termination_by size - i

/-- The first loop of `gray_sort_heap`: the nodes below `i`, downwards. -/
def heapBuild (low size : ℕ) : ℕ → (ℕ → α) → Option (ℕ → α)
  | 0, values => some values
  | i + 1, values => do
    let values ← graySortSift less count low size i values
    heapBuild low size i values

/-- The second loop of `gray_sort_heap`, from `heap_end` down. -/
def heapDrain (low : ℕ) : ℕ → (ℕ → α) → Option (ℕ → α)
  | 0, values => some values
  | heapEnd + 1, values => do
    let values ← swapAt count values low (low + (heapEnd + 1))
    let values ← graySortSift less count low (heapEnd + 1) 0 values
    heapDrain low heapEnd values

def graySortHeap (low high : ℕ) (values : ℕ → α) : Option (ℕ → α) := do
  let size := high - low + 1
  let values ← heapBuild less count low size (size / 2) values
  heapDrain less count low (size - 1) values

/-! ### Partition -/

/-- `while (LESS(values[i], pivot)) i++;`. -/
def scanUp (values : ℕ → α) (pivot : α) (i : ℕ) : Option ℕ :=
  if i < count then if less (values i) pivot then scanUp values pivot (i + 1) else some i
  else none
termination_by count - i

/-- `while (LESS(pivot, values[j])) j--;`. -/
def scanDown (values : ℕ → α) (pivot : α) : ℕ → Option ℕ
  | 0 => do
    let value ← readElement count values 0
    if less pivot value then none else some 0
  | j + 1 => do
    let value ← readElement count values (j + 1)
    if less pivot value then scanDown values pivot j else some (j + 1)

theorem scanUp_le {values : ℕ → α} {pivot : α} {i i' : ℕ}
    (h : scanUp less count values pivot i = some i') : i ≤ i' := by
  fun_induction scanUp less count values pivot i with
  | case1 i hi hless ih => exact Nat.le_of_succ_le (ih h)
  | case2 i hi hless => exact Nat.le_of_eq (Option.some.inj h)
  | case3 i hi => cases h

theorem scanDown_le {values : ℕ → α} {pivot : α} {j j' : ℕ}
    (h : scanDown less count values pivot j = some j') : j' ≤ j := by
  induction j with
  | zero =>
    simp only [scanDown, Option.bind_eq_bind, Option.bind_eq_some_iff] at h
    obtain ⟨value, -, h⟩ := h
    split at h
    · cases h
    · exact Nat.le_of_eq (Option.some.inj h).symm
  | succ j ih =>
    simp only [scanDown, Option.bind_eq_bind, Option.bind_eq_some_iff] at h
    obtain ⟨value, -, h⟩ := h
    split at h
    · exact Nat.le_succ_of_le (ih h)
    · exact Nat.le_of_eq (Option.some.inj h).symm

/-- The loop of the partition: the memory, and the last index of the first part. -/
def graySortPartition (pivot : α) (values : ℕ → α) (i j : ℕ) : Option ((ℕ → α) × ℕ) :=
  match hi : scanUp less count values pivot i, hj : scanDown less count values pivot j with
  | some i', some j' =>
    if j' ≤ i' then some (values, j')
    else
      (swapAt count values i' j').bind fun values =>
        graySortPartition pivot values (i' + 1) (j' - 1)
  | _, _ => none
termination_by j - i
decreasing_by
  have := scanUp_le less count hi
  have := scanDown_le less count hj
  omega

/-! ### Introsort -/

/-- `if (LESS(values[i], values[j])) { swap }`. -/
def swapIfLess (i j : ℕ) (values : ℕ → α) : Option (ℕ → α) := do
  let left ← readElement count values i
  let right ← readElement count values j
  if less left right then swapAt count values i j else some values

def medianOfThree (low middle high : ℕ) (values : ℕ → α) : Option (ℕ → α) := do
  let values ← swapIfLess less count middle low values
  let values ← swapIfLess less count high low values
  swapIfLess less count high middle values

/-- `GRAY_SORT_INSERTION_CUTOFF`. -/
def insertionCutoff : ℕ := 24

/-- `gray_sort_introsort`: both calls and the next round of the loop have the depth that is left. -/
def graySortIntrosort : ℕ → ℕ → ℕ → (ℕ → α) → Option (ℕ → α)
  | 0, low, high, values =>
    if insertionCutoff < high - low then graySortHeap less count low high values
    else graySortInsertion less count low high values
  | depth + 1, low, high, values =>
    if insertionCutoff < high - low then do
      let middle := low + (high - low) / 2
      let values ← medianOfThree less count low middle high values
      let pivot ← readElement count values middle
      let (values, j) ← graySortPartition less count pivot values low high
      if j - low < high - (j + 1) then
        let values ← graySortIntrosort depth low j values
        graySortIntrosort depth (j + 1) high values
      else
        let values ← graySortIntrosort depth (j + 1) high values
        graySortIntrosort depth low j values
    else graySortInsertion less count low high values

/-- The depth limit of `gray_sort`: two for each halving. -/
def sortDepth (remaining : ℕ) : ℕ := if 1 < remaining then sortDepth (remaining / 2) + 2 else 0

/-- `gray_sort`. No index is looked at for `count = 0`, as for the last index -1. -/
def graySort (values : ℕ → α) : Option (ℕ → α) :=
  graySortIntrosort less count (sortDepth count) 0 (count - 1) values

end

end Grayscale
