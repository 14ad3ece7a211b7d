import Grayscale.Stdlib.Sort

/-!
# The introsort is correct

Every part of the introsort rearranges its range, stays in the memory and leaves the range in order.
-/

namespace Grayscale

open Function
open Option (bind_eq_bind bind_some)

variable {α : Type} {less : α → α → Bool} {count : ℕ} {v : ℕ → α}

/-! ### Reads and writes -/

theorem readElement_eq {i : ℕ} (hi : i < count) : readElement count v i = some (v i) := if_pos hi

theorem writeElement_eq {i : ℕ} (hi : i < count) (x : α) :
    writeElement count v i x = some (update v i x) := if_pos hi

theorem swapAt_eq {i j : ℕ} (hi : i < count) (hj : j < count) :
    swapAt count v i j = some (v ∘ Equiv.swap i j) := by
  simp only [swapAt, readElement_eq hi, readElement_eq hj, writeElement_eq hi, writeElement_eq hj,
    bind_eq_bind, bind_some]
  rw [Equiv.swap_comm, Equiv.comp_swap_eq_update]

/-! ### Insertion sort -/

theorem sortedOn_update {low i hole : ℕ} {current : α}
    (hsort : ∀ p q, low ≤ p → p < q → q ≤ i → p ≠ hole → q ≠ hole → AtMost less (v p) (v q))
    (hgreater : ∀ q, hole < q → q ≤ i → AtMost less current (v q))
    (hless : ∀ p, low ≤ p → p < hole → AtMost less (v p) current) :
    SortedOn less low (i + 1) (update v hole current) := by
  intro p q hp hpq hq
  by_cases hph : p = hole
  · subst hph
    rw [update_self, update_of_ne (by omega)]
    exact hgreater q hpq (by omega)
  · rw [update_of_ne hph]
    by_cases hqh : q = hole
    · subst hqh
      rw [update_self]
      exact hless p hp hpq
    · rw [update_of_ne hqh]
      exact hsort p q hp hpq (by omega) hph hqh

section Insertion

variable [IsStrictWeakOrder α fun x y => less x y = true] {low i : ℕ} {current : α}

variable (current) in
theorem insertionShift_spec (hi : i < count) {hole : ℕ} (hlow : low ≤ hole) (hhole : hole ≤ i)
    (hsort : ∀ p q, low ≤ p → p < q → q ≤ i → p ≠ hole → q ≠ hole → AtMost less (v p) (v q))
    (hgreater : ∀ q, hole < q → q ≤ i → AtMost less current (v q)) :
    ∃ v', insertionShift less count low current hole v = some v' ∧
      Rearranged low (i + 1) (update v hole current) v' ∧ SortedOn less low (i + 1) v' := by
  -- The write that ends the loop.
  have hwrite : ∀ {hole : ℕ} {v : ℕ → α}, hole ≤ i →
      SortedOn less low (i + 1) (update v hole current) →
      ∃ v', writeElement count v hole current = some v' ∧
        Rearranged low (i + 1) (update v hole current) v' ∧
        SortedOn less low (i + 1) v' := fun hle hs =>
    ⟨_, writeElement_eq (by omega) current, .refl _ _ _, hs⟩
  induction hole generalizing v with
  | zero =>
    exact hwrite hhole (sortedOn_update hsort hgreater fun p _ hp => by omega)
  | succ j ih =>
    rw [insertionShift]
    by_cases hj : low ≤ j
    swap
    · rw [if_neg hj]
      exact hwrite hhole (sortedOn_update hsort hgreater fun p hlp hp => by omega)
    simp only [if_pos hj, readElement_eq (v := v) (show j < count by omega),
      bind_eq_bind, bind_some]
    cases hless : less current (v j) with
    | false =>
      refine hwrite hhole (sortedOn_update hsort hgreater fun p hlp hp => ?_)
      rcases Nat.lt_succ_iff_lt_or_eq.mp hp with hpj | rfl
      · exact (hsort p j hlp hpj (by omega) (by omega) (by omega)).trans hless
      · exact hless
    | true =>
      simp only [if_true, writeElement_eq (v := v) (show j + 1 < count by omega), bind_some]
      obtain ⟨v', hrun, hperm, hsort'⟩ := ih (v := update v (j + 1) (v j)) hj (by omega)
          (fun p q hp hpq hq hpj hqj => by
            by_cases hqs : q = j + 1
            · rw [hqs, update_self, update_of_ne (by omega)]
              exact hsort p j hp (by omega) (by omega) (by omega) (by omega)
            · rw [update_of_ne hqs]
              by_cases hps : p = j + 1
              · rw [hps, update_self]
                exact hsort j q hj (by omega) hq (by omega) hqs
              · rw [update_of_ne hps]
                exact hsort p q hp hpq hq hps hqs)
          (fun q hjq hq => by
            by_cases hqs : q = j + 1
            · rw [hqs, update_self]
              exact atMost_of_less hless
            · rw [update_of_ne hqs]
              exact hgreater q (by omega) hq)
      refine ⟨v', hrun, ?_, hsort'⟩
      have hswap := Rearranged.swap (a := low) (b := i + 1)
        (update v (j + 1) current) (i := j) (j := j + 1) ⟨hj, by omega⟩
        ⟨by omega, by omega⟩
      have heq : update v (j + 1) current ∘ Equiv.swap j (j + 1) =
          update (update v (j + 1) (v j)) j current := by
        rw [Equiv.comp_swap_eq_update, update_self, update_of_ne (by omega), update_idem]
      rw [heq] at hswap
      exact hswap.trans hperm

theorem insertionLoop_spec {high : ℕ} (hhigh : high < count) (hlow : low < i) (hi : i ≤ high + 1)
    (hsort : SortedOn less low i v) : ∃ v', insertionLoop less count low high i v = some v' ∧
      Rearranged low (high + 1) v v' ∧ SortedOn less low (high + 1) v' := by
  induction hn : high + 1 - i generalizing i v with
  | zero =>
    have heq : i = high + 1 := by omega
    subst heq
    rw [insertionLoop, if_neg (by omega)]
    exact ⟨v, rfl, .refl _ _ _, hsort⟩
  | succ n ih =>
    obtain ⟨v₁, hshf, hperm, hsort₁⟩ := insertionShift_spec (v i) (v := v) (show i < count by omega)
        (Nat.le_of_lt hlow) (Nat.le_refl i)
        (fun p q hp hpq hq _ hqi => hsort p q hp hpq (by omega)) fun q hiq hq => by omega
    rw [update_eq_self] at hperm
    obtain ⟨v', hrun, hrest, hsort'⟩ := ih (i := i + 1) (by omega) (by omega) hsort₁ (by omega)
    refine ⟨v', ?_, (hperm.mono (Nat.le_refl _) (by omega)).trans hrest, hsort'⟩
    rw [insertionLoop, if_pos (by omega)]
    simp only [readElement_eq (v := v) (show i < count by omega), hshf, hrun,
      bind_eq_bind, bind_some]

variable (less) in
theorem graySortInsertion_spec {low high : ℕ} (hlow : low ≤ high) (hhigh : high < count)
    (v : ℕ → α) : ∃ v', graySortInsertion less count low high v = some v' ∧
      Rearranged low (high + 1) v v' ∧ SortedOn less low (high + 1) v' :=
  insertionLoop_spec hhigh (Nat.lt_succ_self low) (by omega) (sortedOn_of_le (Nat.le_refl _) v)

end Insertion

/-! ### Heapsort -/

/-- The node is a child of another. -/
def IsChild (p c : ℕ) : Prop := c = 2 * p + 1 ∨ c = 2 * p + 2

/-- No node is less than a child of it, for the nodes from `r` on. -/
def HeapFrom (less : α → α → Bool) (low size r : ℕ) (v : ℕ → α) : Prop :=
  ∀ p c, IsChild p c → c < size → r ≤ p → AtMost less (v (low + c)) (v (low + p))

section Heap

variable [IsStrictWeakOrder α fun x y => less x y = true] {low size : ℕ}

variable (less) in
theorem isSecondChild_spec (hsize : low + size ≤ count) {i : ℕ} (hi : 2 * i + 1 < size)
    (v : ℕ → α) : ∃ b, isSecondChild less count low size (2 * i + 1) v = some b ∧
      2 * i + 1 + b.toNat < size ∧ IsChild i (2 * i + 1 + b.toNat) ∧ ∀ c, IsChild i c → c < size →
        AtMost less (v (low + c)) (v (low + (2 * i + 1 + b.toNat))) := by
  rw [isSecondChild]
  by_cases hsnd : 2 * i + 1 + 1 < size
  · simp only [if_pos hsnd, readElement_eq (v := v) (show low + (2 * i + 1) < count by omega),
      readElement_eq (v := v) (show low + (2 * i + 1) + 1 < count by omega), bind_eq_bind,
      bind_some]
    refine ⟨_, rfl, ?_⟩
    cases hless : less (v (low + (2 * i + 1))) (v (low + (2 * i + 1) + 1)) with
    | false =>
      refine ⟨hi, .inl rfl, fun c hc _ => ?_⟩
      rcases hc with rfl | rfl
      · exact .refl _
      · exact hless
    | true =>
      refine ⟨hsnd, .inr rfl, fun c hc _ => ?_⟩
      rcases hc with rfl | rfl
      · exact atMost_of_less hless
      · exact .refl _
  · rw [if_neg hsnd]
    refine ⟨false, rfl, hi, .inl rfl, fun c hc hcs => ?_⟩
    rcases hc with rfl | rfl
    · exact .refl _
    · exact absurd hcs hsnd

variable (less) in
theorem graySortSift_spec (hsize : low + size ≤ count) {r i : ℕ} (hr : r ≤ i)
    (hheap : ∀ p c, IsChild p c → c < size → r ≤ p → p ≠ i →
      AtMost less (v (low + c)) (v (low + p)))
    (hbelow : ∀ p c, IsChild p i → r ≤ p → IsChild i c → c < size →
      AtMost less (v (low + c)) (v (low + p))) :
    ∃ v', graySortSift less count low size i v = some v' ∧
      Rearranged low (low + size) v v' ∧ HeapFrom less low size r v' := by
  induction hn : size - i using Nat.strongRecOn generalizing i v with
  | ind n ih =>
    rw [graySortSift]
    by_cases hleaf : size ≤ 2 * i + 1
    · refine ⟨v, if_pos hleaf, .refl _ _ _, fun p c hc hcs hrp => hheap p c hc hcs hrp ?_⟩
      rintro rfl
      rcases hc with rfl | rfl <;> omega
    obtain ⟨b, hsnd, hdsize, hd, hlargest⟩ :=
      isSecondChild_spec less hsize (show 2 * i + 1 < size by omega) v
    rw [if_neg hleaf]
    simp only [hsnd, bind_eq_bind, bind_some]
    generalize 2 * i + 1 + b.toNat = d at hdsize hd hlargest
    have hid : i < d := by rcases hd with rfl | rfl <;> omega
    simp only [readElement_eq (v := v) (show low + i < count by omega),
      readElement_eq (v := v) (show low + d < count by omega), bind_some]
    cases hless : less (v (low + i)) (v (low + d)) with
    | false =>
      refine ⟨v, rfl, .refl _ _ _, fun p c hc hcs hrp => ?_⟩
      by_cases hpi : p = i
      · subst hpi
        exact (hlargest c hc hcs).trans hless
      · exact hheap p c hc hcs hrp hpi
    | true =>
      simp only [if_true, swapAt_eq (v := v) (show low + i < count by omega)
        (show low + d < count by omega), bind_some]
      -- The values after the swap.
      have hi' : (v ∘ Equiv.swap (low + i) (low + d)) (low + i) = v (low + d) := by
        rw [Function.comp_apply, Equiv.swap_apply_left]
      have hd' : (v ∘ Equiv.swap (low + i) (low + d)) (low + d) = v (low + i) := by
        rw [Function.comp_apply, Equiv.swap_apply_right]
      have hoth : ∀ k, k ≠ i → k ≠ d →
          (v ∘ Equiv.swap (low + i) (low + d)) (low + k) = v (low + k) := fun k hki hkd => by
        rw [Function.comp_apply, Equiv.swap_apply_of_ne_of_ne (by omega) (by omega)]
      obtain ⟨v', hrun, hperm, hheap'⟩ := ih (size - d) (by omega) (i := d)
        (v := v ∘ Equiv.swap (low + i) (low + d)) (by omega)
        (fun p c hc hcs hrp hpd => by
          by_cases hpi : p = i
          · subst hpi
            rw [hi']
            by_cases hcd : c = d
            · rw [hcd, hd']
              exact atMost_of_less hless
            · rw [hoth c (by rcases hc with rfl | rfl <;> omega) hcd]
              exact hlargest c hc hcs
          · rw [hoth p hpi hpd]
            by_cases hci : c = i
            · rw [hci, hi']
              exact hbelow p d (hci ▸ hc) hrp hd hdsize
            · have hcd : c ≠ d := by
                rintro rfl
                rcases hc with rfl | rfl <;> rcases hd with hd | hd <;> omega
              rw [hoth c hci hcd]
              exact hheap p c hc hcs hrp hpi)
        (fun p c hpd hrp hdc hcs => by
          have hpi : p = i := by rcases hpd with rfl | rfl <;> rcases hd with hd | hd <;> omega
          have hdlt : d < c := by rcases hdc with rfl | rfl <;> omega
          rw [hpi, hi', hoth c (by omega) (by omega)]
          exact hheap d c hdc hcs (by omega) (by omega))
        rfl
      exact ⟨v', hrun, (Rearranged.swap v ⟨by omega, by omega⟩ ⟨by omega, by omega⟩).trans
        hperm, hheap'⟩

variable (less) in
theorem heapBuild_spec (hsize : low + size ≤ count) {i : ℕ} (hheap : HeapFrom less low size i v) :
    ∃ v', heapBuild less count low size i v = some v' ∧
      Rearranged low (low + size) v v' ∧ HeapFrom less low size 0 v' := by
  induction i generalizing v with
  | zero => exact ⟨v, rfl, .refl _ _ _, hheap⟩
  | succ i ih =>
    obtain ⟨v₁, hsift, hperm, hheap₁⟩ := graySortSift_spec less (v := v) hsize (Nat.le_refl i)
        (fun p c hc hcs hrp hpi => hheap p c hc hcs (by omega))
        fun p c hpi hrp _ _ => by rcases hpi with rfl | rfl <;> omega
    obtain ⟨v', hrun, hrest, hheap'⟩ := ih hheap₁
    refine ⟨v', ?_, hperm.trans hrest, hheap'⟩
    simp only [heapBuild, hsift, bind_eq_bind, bind_some, hrun]

theorem HeapFrom.le_root (hheap : HeapFrom less low size 0 v) {c : ℕ} (hc : c < size) :
    AtMost less (v (low + c)) (v low) := by
  induction c using Nat.strongRecOn with
  | ind c ih =>
    rcases Nat.eq_zero_or_pos c with rfl | hpos
    · exact .refl _
    · have hchild : IsChild ((c - 1) / 2) c := by unfold IsChild; omega
      exact (hheap _ c hchild hc (Nat.zero_le _)).trans (ih _ (by omega) (by omega))

theorem heapDrain_spec (hsize : low + size ≤ count) {heapEnd : ℕ} (hend : heapEnd < size)
    (hheap : HeapFrom less low (heapEnd + 1) 0 v)
    (hsort : ∀ p q, heapEnd < q → q < size → p < q → AtMost less (v (low + p)) (v (low + q))) :
    ∃ v', heapDrain less count low heapEnd v = some v' ∧
      Rearranged low (low + size) v v' ∧ SortedOn less low (low + size) v' := by
  induction heapEnd generalizing v with
  | zero =>
    refine ⟨v, rfl, .refl _ _ _, fun p q hp hpq hq => ?_⟩
    have hle := hsort (p - low) (q - low) (by omega) (by omega) (by omega)
    rwa [Nat.add_sub_cancel' hp, Nat.add_sub_cancel' (by omega)] at hle
  | succ e ih =>
    -- The root goes behind the heap.
    have hswap : swapAt count v low (low + (e + 1)) =
        some (v ∘ Equiv.swap low (low + (e + 1))) := swapAt_eq (by omega) (by omega)
    have hoth : ∀ k, k ≠ 0 → k ≠ e + 1 →
        (v ∘ Equiv.swap low (low + (e + 1))) (low + k) = v (low + k) := fun k hk hke => by
      rw [Function.comp_apply, Equiv.swap_apply_of_ne_of_ne (by omega) (by omega)]
    have hlast : (v ∘ Equiv.swap low (low + (e + 1))) (low + (e + 1)) = v low := by
      rw [Function.comp_apply, Equiv.swap_apply_right]
    have hswapped : Rearranged low (low + (e + 2)) v (v ∘ Equiv.swap low (low + (e + 1))) :=
      .swap v ⟨by omega, by omega⟩ ⟨by omega, by omega⟩
    obtain ⟨v₂, hsift, hperm, hheap₂⟩ :=
      graySortSift_spec less (v := v ∘ Equiv.swap low (low + (e + 1)))
        (show low + (e + 1) ≤ count by omega) (Nat.le_refl 0)
        (fun p c hc hcs _ hp => by
          have hcpos : c ≠ 0 := by rcases hc with rfl | rfl <;> omega
          have hpe : p ≠ e + 1 := by rcases hc with rfl | rfl <;> omega
          rw [hoth c hcpos (by omega), hoth p hp hpe]
          exact hheap p c hc (by omega) (Nat.zero_le _))
        fun p c hp _ _ _ => by rcases hp with hp | hp <;> omega
    have hboth : Rearranged low (low + (e + 2)) v v₂ :=
      hswapped.trans (hperm.mono (Nat.le_refl _) (by omega))
    have hroot : v₂ (low + (e + 1)) = v low := by
      rw [hperm.outside (by omega), hlast]
    obtain ⟨v', hrun, hrest, hsort'⟩ := ih (by omega) hheap₂ fun p q hq hqs hpq => by
      rcases Nat.eq_or_lt_of_le (show e + 1 ≤ q from hq) with rfl | hqe
      · rw [hroot]
        refine hboth.forall_mem (P := fun x => AtMost less x (v low)) (fun k hk hke => ?_)
          (by omega) (by omega)
        have hle := hheap.le_root (c := k - low) (by omega)
        rwa [Nat.add_sub_cancel' hk] at hle
      · rw [hboth.outside (i := low + q) (by omega)]
        rcases Nat.lt_or_ge p (e + 2) with hpe | hpe
        · refine hboth.forall_mem (P := fun x => AtMost less x (v (low + q))) (fun k hk hke => ?_)
            (by omega) (by omega)
          have hle := hsort (k - low) q hqe hqs (by omega)
          rwa [Nat.add_sub_cancel' hk] at hle
        · rw [hboth.outside (i := low + p) (by omega)]
          exact hsort p q hqe hqs hpq
    refine ⟨v', ?_, (hboth.mono (Nat.le_refl _) (by omega)).trans hrest, hsort'⟩
    simp only [heapDrain, hswap, hsift, hrun, bind_eq_bind, bind_some]

theorem graySortHeap_spec {high : ℕ} (hlow : low ≤ high) (hhigh : high < count) (v : ℕ → α) :
    ∃ v', graySortHeap less count low high v = some v' ∧
      Rearranged low (high + 1) v v' ∧ SortedOn less low (high + 1) v' := by
  have hsize : low + (high - low + 1) = high + 1 := by omega
  obtain ⟨v₁, hbuild, hperm, hheap⟩ :=
    heapBuild_spec less (v := v) (show low + (high - low + 1) ≤ count by omega)
      (i := (high - low + 1) / 2) fun p c hc hcs hp => by rcases hc with rfl | rfl <;> omega
  obtain ⟨v', hdrain, hrest, hsort⟩ := heapDrain_spec (show low + (high - low + 1) ≤ count by omega)
      (show high - low < high - low + 1 by omega) hheap fun p q hq hqs _ => by omega
  rw [hsize] at hperm hrest hsort
  refine ⟨v', ?_, hperm.trans hrest, hsort⟩
  simp only [graySortHeap, hbuild, bind_eq_bind, bind_some, Nat.add_sub_cancel, hdrain]

end Heap

/-! ### Partition -/

section Partition

variable {pivot : α}

theorem scanUp_spec {i s : ℕ} (his : i ≤ s) (hs : s < count) (hstop : AtMost less pivot (v s)) :
    ∃ i', scanUp less count v pivot i = some i' ∧ i ≤ i' ∧ i' ≤ s ∧ AtMost less pivot (v i') ∧
      ∀ p, i ≤ p → p < i' → less (v p) pivot = true := by
  fun_induction scanUp less count v pivot i with
  | case1 i hi hless ih =>
    have hne : i ≠ s := by
      rintro rfl
      exact Bool.eq_false_iff.mp hstop hless
    obtain ⟨i', hrun, hle, hles, hnot, hall⟩ := ih (by omega)
    refine ⟨i', hrun, by omega, hles, hnot, fun p hp hpi => ?_⟩
    rcases Nat.eq_or_lt_of_le hp with rfl | hlt
    · exact hless
    · exact hall p hlt hpi
  | case2 i hi hless =>
    exact ⟨i, rfl, Nat.le_refl i, his, Bool.eq_false_iff.mpr hless, fun p hp hpi => by omega⟩
  | case3 i hi => omega

theorem scanDown_spec {j s : ℕ} (hsj : s ≤ j) (hj : j < count) (hstop : AtMost less (v s) pivot) :
    ∃ j', scanDown less count v pivot j = some j' ∧ s ≤ j' ∧ j' ≤ j ∧ AtMost less (v j') pivot ∧
      ∀ q, j' < q → q ≤ j → less pivot (v q) = true := by
  induction j with
  | zero =>
    have hs : s = 0 := by omega
    subst hs
    refine ⟨0, ?_, Nat.le_refl 0, Nat.le_refl 0, hstop, fun q hq hqj => by omega⟩
    simp only [scanDown, readElement_eq hj, bind_eq_bind, bind_some,
      show less pivot (v 0) = false from hstop, Bool.false_eq_true, if_false]
  | succ j ih =>
    simp only [scanDown, readElement_eq hj, bind_eq_bind, bind_some]
    cases hless : less pivot (v (j + 1)) with
    | false => exact ⟨j + 1, rfl, hsj, Nat.le_refl _, hless, fun q hq hqj => by omega⟩
    | true =>
      have hne : s ≠ j + 1 := by
        rintro rfl
        exact Bool.eq_false_iff.mp hstop hless
      obtain ⟨j', hrun, hsle, hle, hnot, hall⟩ := ih (by omega) (by omega)
      refine ⟨j', hrun, hsle, by omega, hnot, fun q hq hqj => ?_⟩
      rcases Nat.eq_or_lt_of_le hqj with rfl | hlt
      · exact hless
      · exact hall q hq (Nat.le_of_lt_succ hlt)

theorem graySortPartition_eq {i j i' j' : ℕ} (hi : scanUp less count v pivot i = some i')
    (hj : scanDown less count v pivot j = some j') : graySortPartition less count pivot v i j =
      if j' ≤ i' then some (v, j')
      else (swapAt count v i' j').bind fun v =>
        graySortPartition less count pivot v (i' + 1) (j' - 1) := by
  rw [graySortPartition]
  split
  · rename_i a b ha hb
    rw [hi] at ha
    rw [hj] at hb
    cases ha
    cases hb
    rfl
  · rename_i hnot
    exact absurd hj (hnot i' j' hi)

variable [IsStrictWeakOrder α fun x y => less x y = true]

variable (less pivot) in
/-- The partition stays in its range, for the values at `s` and at `t` stop the scans; both parts
are shorter than the range. -/
theorem graySortPartition_spec {low high i j s t : ℕ} (hhigh : high < count) (hlow : low ≤ i)
    (hj : j ≤ high) (hbelow : ∀ p, low ≤ p → p < i → AtMost less (v p) pivot)
    (habove : ∀ q, j < q → q ≤ high → AtMost less pivot (v q))
    (hs : i ≤ s ∧ s ≤ high ∧ AtMost less pivot (v s)) (hsho : s < high ∨ j < high)
    (ht : low ≤ t ∧ t ≤ j ∧ AtMost less (v t) pivot) :
    ∃ v' m, graySortPartition less count pivot v i j = some (v', m) ∧
      Rearranged low (high + 1) v v' ∧ low ≤ m ∧ m < high ∧
      (∀ p, low ≤ p → p < m + 1 → AtMost less (v' p) pivot) ∧
      ∀ q, m + 1 ≤ q → q < high + 1 → AtMost less pivot (v' q) := by
  induction hn : j - i using Nat.strongRecOn generalizing i j s t v with
  | ind n ih =>
    obtain ⟨i', hup, hii, his, hstop, hless⟩ := scanUp_spec hs.1 (show s < count by omega) hs.2.2
    obtain ⟨j', hdown, htj, hjj, hstop', hgreater⟩ :=
      scanDown_spec ht.2.1 (show j < count by omega) ht.2.2
    rw [graySortPartition_eq hup hdown]
    have hbelow' : ∀ p, low ≤ p → p < i' → AtMost less (v p) pivot := fun p hp hpi => by
      rcases Nat.lt_or_ge p i with hlt | hge
      · exact hbelow p hp hlt
      · exact atMost_of_less (hless p hge hpi)
    have habove' : ∀ q, j' < q → q ≤ high → AtMost less pivot (v q) := fun q hq hqh => by
      rcases Nat.lt_or_ge j q with hlt | hge
      · exact habove q hlt hqh
      · exact atMost_of_less (hgreater q hq hge)
    by_cases hcross : j' ≤ i'
    · rw [if_pos hcross]
      refine ⟨v, j', rfl, .refl _ _ _, by omega, by omega, fun p hp hpj => ?_, fun q hq hqh =>
        habove' q hq (by omega)⟩
      rcases Nat.eq_or_lt_of_le (Nat.le_of_lt_succ hpj) with rfl | hlt
      · exact hstop'
      · exact hbelow' p hp (by omega)
    · have hswap : swapAt count v i' j' = some (v ∘ Equiv.swap i' j') :=
        swapAt_eq (by omega) (by omega)
      have hi' : (v ∘ Equiv.swap i' j') i' = v j' := by
        rw [Function.comp_apply, Equiv.swap_apply_left]
      have hj' : (v ∘ Equiv.swap i' j') j' = v i' := by
        rw [Function.comp_apply, Equiv.swap_apply_right]
      have hoth : ∀ k, k ≠ i' → k ≠ j' → (v ∘ Equiv.swap i' j') k = v k := fun k hki hkj => by
        rw [Function.comp_apply, Equiv.swap_apply_of_ne_of_ne hki hkj]
      -- The swapped values stop the scans of the next round.
      obtain ⟨v', m, hrun, hperm, hres⟩ := ih (j' - 1 - (i' + 1)) (by omega) (i := i' + 1)
        (j := j' - 1) (s := j') (t := i') (v := v ∘ Equiv.swap i' j') (by omega) (by omega)
        (fun p hp hpi => by
          rcases Nat.eq_or_lt_of_le (Nat.le_of_lt_succ hpi) with rfl | hlt
          · exact hi' ▸ hstop'
          · rw [hoth p (by omega) (by omega)]
            exact hbelow' p hp hlt)
        (fun q hq hqh => by
          by_cases hqj : q = j'
          · rw [hqj, hj']
            exact hstop
          · rw [hoth q (by omega) hqj]
            exact habove' q (by omega) hqh)
        ⟨by omega, by omega, hj' ▸ hstop⟩ (.inr (by omega))
        ⟨by omega, by omega, hi' ▸ hstop'⟩ rfl
      refine ⟨v', m, ?_, ?_, hres⟩
      · rw [if_neg hcross, hswap, bind_some, hrun]
      · exact (Rearranged.swap v ⟨by omega, by omega⟩ ⟨by omega, by omega⟩).trans hperm

end Partition

/-! ### Introsort -/

section Introsort

variable (less) in
theorem swapIfLess_spec {low high i j : ℕ} (hhigh : high < count) (hi : low ≤ i ∧ i ≤ high)
    (hj : low ≤ j ∧ j ≤ high) (v : ℕ → α) :
    ∃ v', swapIfLess less count i j v = some v' ∧ Rearranged low (high + 1) v v' := by
  simp only [swapIfLess, readElement_eq (v := v) (show i < count by omega),
    readElement_eq (v := v) (show j < count by omega), bind_eq_bind, bind_some]
  split
  · exact ⟨_, swapAt_eq (by omega) (by omega), .swap v (by omega) (by omega)⟩
  · exact ⟨v, rfl, .refl _ _ _⟩

variable (less) in
theorem medianOfThree_spec {low middle high : ℕ} (hhigh : high < count) (hlow : low ≤ middle)
    (hmid : middle ≤ high) (v : ℕ → α) :
    ∃ v', medianOfThree less count low middle high v = some v' ∧
      Rearranged low (high + 1) v v' := by
  obtain ⟨v₁, h₁, hr₁⟩ := swapIfLess_spec less hhigh ⟨hlow, hmid⟩
    ⟨Nat.le_refl low, by omega⟩ v
  obtain ⟨v₂, h₂, hr₂⟩ := swapIfLess_spec less hhigh ⟨by omega, Nat.le_refl high⟩
    ⟨Nat.le_refl low, by omega⟩ v₁
  obtain ⟨v₃, h₃, hr₃⟩ := swapIfLess_spec less hhigh ⟨by omega, Nat.le_refl high⟩
    ⟨hlow, hmid⟩ v₂
  refine ⟨v₃, ?_, (hr₁.trans hr₂).trans hr₃⟩
  simp only [medianOfThree, h₁, h₂, h₃, bind_eq_bind, bind_some]

variable [IsStrictWeakOrder α fun x y => less x y = true]

variable (less) in
theorem graySortIntrosort_spec (depth : ℕ) {low high : ℕ} (hlow : low ≤ high) (hhigh : high < count)
    (v : ℕ → α) : ∃ v', graySortIntrosort less count depth low high v = some v' ∧
      Rearranged low (high + 1) v v' ∧ SortedOn less low (high + 1) v' := by
  induction depth generalizing low high v with
  | zero =>
    rw [graySortIntrosort]
    split
    · exact graySortHeap_spec hlow hhigh v
    · exact graySortInsertion_spec less hlow hhigh v
  | succ depth ih =>
    rw [graySortIntrosort]
    by_cases hcutoff : insertionCutoff < high - low
    swap
    · rw [if_neg hcutoff]
      exact graySortInsertion_spec less hlow hhigh v
    have hlong : 24 < high - low := hcutoff
    obtain ⟨v₀, hmedian, hr₀⟩ := medianOfThree_spec less hhigh
      (show low ≤ low + (high - low) / 2 by omega) (by omega) v
    -- The pivot itself stops both scans of the first round.
    obtain ⟨v₁, m, hpartition, hr₁, hlm, hmh, hleft, hrgt⟩ :=
      graySortPartition_spec less (v₀ (low + (high - low) / 2)) (v := v₀) hhigh (Nat.le_refl low)
        (Nat.le_refl high) (fun p hp hpl => by omega) (fun q hq hqh => by omega)
        (s := low + (high - low) / 2)
        ⟨by omega, by omega, .refl _⟩ (.inl (by omega)) (t := low + (high - low) / 2)
        ⟨by omega, by omega, .refl _⟩
    rw [if_pos hcutoff]
    simp only [hmedian, readElement_eq (v := v₀) (show low + (high - low) / 2 < count by omega),
      hpartition, bind_eq_bind, bind_some]
    have hst := hr₀.trans hr₁
    generalize v₀ (low + (high - low) / 2) = pivot at hleft hrgt
    split
    · obtain ⟨v₂, hrun₂, hr₂, hs₂⟩ := ih hlm (show m < count by omega) v₁
      obtain ⟨v₃, hrun₃, hr₃, hs₃⟩ := ih (show m + 1 ≤ high by omega) hhigh v₂
      refine ⟨v₃, by simp only [hrun₂, bind_some, hrun₃], ?_, ?_⟩
      · exact hst.trans ((hr₂.mono (Nat.le_refl _) (by omega)).trans
          (hr₃.mono (by omega) (Nat.le_refl _)))
      · refine SortedOn.join pivot (hs₂.congr fun k _ hk => hr₃.outside (.inl hk)) hs₃ ?_ ?_
        · intro p hp hpm
          rw [hr₃.outside (.inl hpm)]
          exact hr₂.forall_mem (P := fun x => AtMost less x _) hleft hp hpm
        · intro q hq hqh
          refine hr₃.forall_mem (fun k hk hkh => ?_) hq hqh
          rw [hr₂.outside (.inr hk)]
          exact hrgt k hk hkh
    · obtain ⟨v₂, hrun₂, hr₂, hs₂⟩ := ih (show m + 1 ≤ high by omega) hhigh v₁
      obtain ⟨v₃, hrun₃, hr₃, hs₃⟩ := ih hlm (show m < count by omega) v₂
      refine ⟨v₃, by simp only [hrun₂, bind_some, hrun₃], ?_, ?_⟩
      · exact hst.trans ((hr₂.mono (by omega) (Nat.le_refl _)).trans
          (hr₃.mono (Nat.le_refl _) (by omega)))
      · refine SortedOn.join pivot hs₃ (hs₂.congr fun k hk _ => hr₃.outside (.inr hk)) ?_ ?_
        · intro p hp hpm
          refine hr₃.forall_mem (P := fun x => AtMost less x _) (fun k hk hkm => ?_) hp hpm
          rw [hr₂.outside (.inl hkm)]
          exact hleft k hk hkm
        · intro q hq hqh
          rw [hr₃.outside (.inr hq)]
          exact hr₂.forall_mem hrgt hq hqh

variable (less) in
theorem graySort_spec (count : ℕ) (v : ℕ → α) :
    ∃ v', graySort less count v = some v' ∧ Rearranged 0 count v v' ∧ SortedOn less 0 count v' := by
  rcases Nat.eq_zero_or_pos count with rfl | hpos
  · refine ⟨v, ?_, .refl _ _ _, sortedOn_of_le (Nat.zero_le _) v⟩
    have hdep : sortDepth 0 = 0 := by rw [sortDepth, if_neg (by decide)]
    rw [graySort, hdep, graySortIntrosort, if_neg (by decide), graySortInsertion, insertionLoop,
      if_neg (by decide)]
  · have hspec := graySortIntrosort_spec less (sortDepth count) (Nat.zero_le (count - 1))
      (show count - 1 < count by omega) v
    rwa [Nat.sub_add_cancel hpos] at hspec

end Introsort

end Grayscale
