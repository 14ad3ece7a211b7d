import Grayscale.Codegen.IterationGuards

/-!
# Iteration guards count the active loops

Whatever way a loop is left, the guards that are released are those of the loops that are left. So
the counts are right as long as a loop guards the container itself, and no header is copied,
overwritten or moved while its container is iterated over.
-/

namespace Grayscale.IterationGuards

open List

/-! ### The condition -/

/-- The condition of a step: a loop guards the container that it iterates over, no operation copies
or overwrites the header of a container that is iterated over, and no test panics in a loop. -/
def MeetsGuards (s : GuardState) : GuardStep → Prop
  | .enter collection => collection.guardsCopy = false
  | .operation o => ∀ a ∈ o.touched, ¬ s.IsIterated a
  | .recover => s.active = []

/-! ### Headers -/

section Headers

variable {headers : Address → Option Header} {a b : Address} {h : Header} {n : ℤ}

@[simp]
theorem writeHeader_self (x : Option Header) : writeHeader headers a x a = x := by
  simp [writeHeader]

theorem writeHeader_of_ne (hb : b ≠ a) (x : Option Header) :
    writeHeader headers a x b = headers b := by
  simp [writeHeader, hb]

theorem iterating_self (ha : headers a = some h) :
    addIterating headers a n a = some { h with iterating := h.iterating + n } := by
  simp [addIterating, ha]

theorem iterating_of_ne (hb : b ≠ a) : addIterating headers a n b = headers b :=
  writeHeader_of_ne hb _

theorem writeHeader_eq_some {x : Option Header} :
    writeHeader headers a x b = some h ↔ b = a ∧ x = some h ∨ b ≠ a ∧ headers b = some h := by
  by_cases hb : b = a
  · subst hb
    simp
  · simp [writeHeader_of_ne hb, hb]

theorem iterating_eq_some : addIterating headers a n b = some h ↔
      (b = a ∧ ∃ h', headers b = some h' ∧ h = { h' with iterating := h'.iterating + n }) ∨
        b ≠ a ∧ headers b = some h := by
  rw [addIterating, writeHeader_eq_some, Option.map_eq_some_iff]
  refine or_congr_left (and_congr_right fun hb => ?_)
  subst hb
  simp only [eq_comm]

theorem exists_of_iterating (hb : addIterating headers a n b = some h) :
    ∃ h', headers b = some h' ∧ h'.container = h.container := by
  rcases iterating_eq_some.1 hb with ⟨-, h', hold, rfl⟩ | ⟨-, hold⟩
  · exact ⟨h', hold, rfl⟩
  · exact ⟨h, hold, rfl⟩

theorem exists_iterating (hb : headers b = some h) :
    ∃ h', addIterating headers a n b = some h' ∧ h'.container = h.container := by
  by_cases hba : b = a
  · subst hba
    exact ⟨_, iterating_self hb, rfl⟩
  · exact ⟨h, by rwa [iterating_of_ne hba], rfl⟩

end Headers

@[simp]
theorem loopsOver_append (l l' : List ActiveLoop) (container : ℕ) :
    loopsOver (l ++ l') container = loopsOver l container + loopsOver l' container := by
  simp [loopsOver]

@[simp]
theorem loopsOver_singleton (loop : ActiveLoop) (container : ℕ) :
    loopsOver [loop] container = if loop.container = container then 1 else 0 := by
  simp [loopsOver, countP_cons]

theorem loopsOver_eq_zero_iff {l : List ActiveLoop} {container : ℕ} :
    loopsOver l container = 0 ↔ ∀ loop ∈ l, loop.container ≠ container := by
  simp [loopsOver, countP_eq_zero]

/-! ### The invariant -/

/-- The invariant where the loops of the current call from number `m` on have been released: the
counts are those of the others, each active loop has its guard at its container, and no two headers
are of one container. -/
structure Guarded (m : ℕ) (s : GuardState) : Prop where
  counts : ∀ a h, s.headers a = some h →
    h.iterating = loopsOver (s.outer ++ s.frame.take m) h.container
  guards : ∀ loop ∈ s.active, ∃ h, s.headers loop.guard = some h ∧ h.container = loop.container
  distinct : ∀ a b h h', s.headers a = some h → s.headers b = some h' →
    h.container = h'.container → a = b
  fresh : ∀ a h, s.headers a = some h → h.container < s.nextContainer

section Invariant

variable {s s' : GuardState} {m : ℕ}

theorem guarded_start : Guarded 0 .start where
  counts _ _ h := by cases h
  guards _ h := by simp [GuardState.active, GuardState.start] at h
  distinct _ _ _ _ h := by cases h
  fresh _ _ h := by cases h

theorem Guarded.countsLoops (hs : Guarded s.frame.length s) : CountsLoops s := by
  intro a h ha
  simpa [GuardState.active] using hs.counts a h ha

theorem Guarded.guardsMeet (hs : Guarded s.frame.length s) : GuardsMeet s := by
  refine ⟨hs.countsLoops, fun a h ha hzero => ?_⟩
  have hcnt : h.iterating = 0 := by simpa [hzero] using hs.countsLoops a h ha
  simp [HeaderOperation.perform, ha, hcnt]

theorem Guarded.lt_of_mem (hs : Guarded m s) {loop : ActiveLoop} (hloop : loop ∈ s.active) :
    loop.container < s.nextContainer := by
  obtain ⟨h, hh, hcont⟩ := hs.guards loop hloop
  exact hcont ▸ hs.fresh _ _ hh

theorem Guarded.loopsOver_next (hs : Guarded m s) : loopsOver s.active s.nextContainer = 0 :=
  loopsOver_eq_zero_iff.2 fun _ hloop => (hs.lt_of_mem hloop).ne

theorem GuardState.ne_guard (hs : ∀ loop ∈ s.active, ∃ h, s.headers loop.guard = some h ∧
    h.container = loop.container) {a : Address} (ha : ¬ s.IsIterated a) {loop : ActiveLoop}
    (hloop : loop ∈ s.active) : loop.guard ≠ a := by
  rintro rfl
  obtain ⟨h, hh, hcont⟩ := hs loop hloop
  refine ha ⟨h, hh, fun hzero => ?_⟩
  exact loopsOver_eq_zero_iff.1 hzero loop hloop hcont.symm

/-! ### Operations -/

theorem Guarded.write (hs : Guarded s.frame.length s) {a : Address} (ha : ¬ s.IsIterated a) :
    Guarded s.frame.length { s with
      headers := writeHeader s.headers a (some ⟨s.nextContainer, 0⟩)
      nextContainer := s.nextContainer + 1 } where
  counts b h hb := by
    rcases writeHeader_eq_some.1 hb with ⟨-, hnew⟩ | ⟨-, hb⟩
    · cases hnew
      have hzero := hs.loopsOver_next
      rw [GuardState.active] at hzero
      simp [hzero, -loopsOver_append]
    · exact hs.counts b h hb
  guards loop hloop := by
    obtain ⟨h, hh, hcont⟩ := hs.guards loop hloop
    exact ⟨h, (writeHeader_of_ne (s.ne_guard hs.guards ha hloop) _).trans hh, hcont⟩
  distinct b b' h h' hb hb' hcont := by
    rcases writeHeader_eq_some.1 hb with ⟨hba, hnew⟩ | ⟨-, hold⟩ <;>
      rcases writeHeader_eq_some.1 hb' with ⟨hba', hnew'⟩ | ⟨-, hold'⟩
    · rw [hba, hba']
    · cases hnew
      exact absurd hcont.symm (hs.fresh _ _ hold').ne
    · cases hnew'
      exact absurd hcont (hs.fresh _ _ hold).ne
    · exact hs.distinct b b' h h' hold hold' hcont
  fresh b h hb := by
    rcases writeHeader_eq_some.1 hb with ⟨-, hnew⟩ | ⟨-, hb⟩
    · cases hnew
      exact Nat.lt_succ_self _
    · exact Nat.lt_succ_of_lt (hs.fresh b h hb)

theorem Guarded.erase (hs : Guarded s.frame.length s) {a : Address} (ha : ¬ s.IsIterated a) :
    Guarded s.frame.length { s with headers := writeHeader s.headers a none } := by
  have hold {b : Address} {h : Header} (hb : writeHeader s.headers a none b = some h) :
      s.headers b = some h := by
    rcases writeHeader_eq_some.1 hb with ⟨-, hnone⟩ | ⟨-, hb⟩
    · cases hnone
    · exact hb
  exact
    { counts := fun b h hb => hs.counts b h (hold hb)
      guards := fun loop hloop => by
        obtain ⟨h, hh, hcont⟩ := hs.guards loop hloop
        exact ⟨h, (writeHeader_of_ne (s.ne_guard hs.guards ha hloop) _).trans hh, hcont⟩
      distinct := fun b b' h h' hb hb' => hs.distinct b b' h h' (hold hb) (hold hb')
      fresh := fun b h hb => hs.fresh b h (hold hb) }

variable (r : Relocation)

theorem Relocation.exists_origin {headers : Address → Option Header} {b : Address}
    {h : Header} (hb : r.headersAfter headers b = some h) :
    (∃ a, (a, b) ∈ r.moves ∧ headers a = some h) ∨
      b ∉ r.moves.map Prod.fst ∧ headers b = some h := by
  unfold headersAfter at hb
  split at hb
  · rename_i move hmove
    obtain rfl : move.2 = b := by simpa using find?_some hmove
    exact .inl ⟨move.1, mem_of_find?_eq_some hmove, hb⟩
  · split_ifs at hb with hsrc
    exact .inr ⟨hsrc, hb⟩

theorem Relocation.headersAfter_of_notMem {headers : Address → Option Header}
    {b : Address} (hfst : b ∉ r.moves.map Prod.fst) (hsnd : b ∉ r.moves.map Prod.snd) :
    r.headersAfter headers b = headers b := by
  have hfind : r.moves.find? (fun move => move.2 = b) = none := by
    simp only [find?_eq_none, decide_eq_true_eq]
    exact fun move hmove hmoved => hsnd (mem_map.2 ⟨move, hmove, hmoved⟩)
  simp [headersAfter, hfind, hfst]

theorem Relocation.target_unique {a b b' : Address} (hb : (a, b) ∈ r.moves)
    (hb' : (a, b') ∈ r.moves) : b = b' :=
  congrArg Prod.snd (inj_on_of_nodup_map r.sources_nodup hb hb' rfl)

theorem Guarded.relocate (hs : Guarded s.frame.length s) (r : Relocation)
    (hr : ∀ a ∈ r.moves.map Prod.fst ++ r.moves.map Prod.snd, ¬ s.IsIterated a) :
    Guarded s.frame.length { s with headers := r.headersAfter s.headers } := by
  have hold {b : Address} {h : Header} (hb : r.headersAfter s.headers b = some h) :
      ∃ a, s.headers a = some h := by
    rcases r.exists_origin hb with ⟨a, -, ha⟩ | ⟨-, ha⟩
    · exact ⟨a, ha⟩
    · exact ⟨b, ha⟩
  exact
    { counts := fun b h hb => by
        obtain ⟨a, ha⟩ := hold hb
        exact hs.counts a h ha
      guards := fun loop hloop => by
        obtain ⟨h, hh, hcont⟩ := hs.guards loop hloop
        have hkept : loop.guard ∉ r.moves.map Prod.fst ++ r.moves.map Prod.snd :=
          fun hmem => s.ne_guard hs.guards (hr _ hmem) hloop rfl
        rw [mem_append, not_or] at hkept
        exact ⟨h, (r.headersAfter_of_notMem hkept.1 hkept.2).trans hh, hcont⟩
      distinct := fun b b' h h' hb hb' hcont => by
        rcases r.exists_origin hb with ⟨a, hab, ha⟩ | ⟨hsrc, ha⟩ <;>
          rcases r.exists_origin hb' with ⟨a', hab', ha'⟩ | ⟨hsrc', ha'⟩
        · obtain rfl := hs.distinct a a' h h' ha ha' hcont
          exact r.target_unique hab hab'
        · obtain rfl := hs.distinct a b' h h' ha ha' hcont
          exact absurd (mem_map.2 ⟨_, hab, rfl⟩) hsrc'
        · obtain rfl := hs.distinct b a' h h' ha ha' hcont
          exact absurd (mem_map.2 ⟨_, hab', rfl⟩) hsrc
        · exact hs.distinct b b' h h' ha ha' hcont
      fresh := fun b h hb => by
        obtain ⟨a, ha⟩ := hold hb
        exact hs.fresh a h ha }

theorem Guarded.perform (hs : Guarded s.frame.length s) {o : HeaderOperation}
    (ho : MeetsGuards s (.operation o)) (h : o.perform s = some s') :
    Guarded s'.frame.length s' ∧ s'.frame = s.frame ∧ s'.outer = s.outer := by
  cases o with
  | create target =>
    obtain rfl : _ = s' := by simpa [HeaderOperation.perform] using h
    exact ⟨hs.write (ho target (by simp [HeaderOperation.touched])), rfl, rfl⟩
  | modify target =>
    simp only [HeaderOperation.perform] at h
    split at h
    · cases h
    · split_ifs at h
      obtain rfl : s = s' := by simpa using h
      exact ⟨hs, rfl, rfl⟩
  | share source target =>
    simp only [HeaderOperation.perform] at h
    split at h
    · cases h
    · rename_i header hsrc
      obtain rfl : _ = s' := by simpa using h
      have hzero : loopsOver s.active header.container = 0 := by
        by_contra hne
        exact ho source (by simp [HeaderOperation.touched]) ⟨header, hsrc, hne⟩
      have hcnt : header.iterating = 0 := by simpa [hzero] using hs.countsLoops _ _ hsrc
      rw [hcnt]
      exact ⟨hs.write (ho target (by simp [HeaderOperation.touched])), rfl, rfl⟩
  | relocate r =>
    obtain rfl : _ = s' := by simpa [HeaderOperation.perform] using h
    exact ⟨hs.relocate r ho, rfl, rfl⟩
  | discard target =>
    obtain rfl : _ = s' := by simpa [HeaderOperation.perform] using h
    exact ⟨hs.erase (ho target (by simp [HeaderOperation.touched])), rfl, rfl⟩

theorem Guarded.performs {l : List HeaderOperation} (h : Performs MeetsGuards s l s')
    (hs : Guarded s.frame.length s) :
    Guarded s'.frame.length s' ∧ s'.frame = s.frame ∧ s'.outer = s.outer := by
  induction h with
  | nil s => exact ⟨hs, rfl, rfl⟩
  | cons hcond ho _ ih =>
    obtain ⟨hs', hfrm, hout⟩ := hs.perform hcond ho
    obtain ⟨hs'', hfrm', hout'⟩ := ih hs'
    exact ⟨hs'', hfrm'.trans hfrm, hout'.trans hout⟩

/-! ### Guards -/

theorem Guarded.raise (hs : Guarded s.frame.length s) {a : Address} {h : Header}
    (ha : s.headers a = some h) : Guarded (s.frame.length + 1) { s with
      headers := addIterating s.headers a 1, frame := s.frame ++ [⟨a, h.container⟩] } where
  counts b h' hb := by
    have htake : (s.frame ++ [(⟨a, h.container⟩ : ActiveLoop)]).take (s.frame.length + 1) =
        s.frame ++ [⟨a, h.container⟩] := take_of_length_le (by simp)
    rw [htake, ← append_assoc, loopsOver_append, loopsOver_singleton]
    rcases iterating_eq_some.1 hb with ⟨rfl, h₀, hold, rfl⟩ | ⟨hne, hold⟩
    · obtain rfl : h = h₀ := Option.some.inj (ha.symm.trans hold)
      have hcnt := hs.countsLoops _ h hold
      rw [GuardState.active] at hcnt
      simp [hcnt, -loopsOver_append]
    · have hcont : h.container ≠ h'.container := fun heq =>
        hne (hs.distinct b a h' h hold ha heq.symm)
      have hcnt := hs.countsLoops _ h' hold
      rw [GuardState.active] at hcnt
      simp [hcnt, hcont, -loopsOver_append]
  guards loop hloop := by
    simp only [GuardState.active, ← append_assoc, mem_append, mem_singleton] at hloop
    rcases hloop with hloop | rfl
    · obtain ⟨h', hh, hcont⟩ := hs.guards loop (mem_append.2 hloop)
      obtain ⟨h'', hh', hcont'⟩ := exists_iterating (a := a) (n := 1) hh
      exact ⟨h'', hh', hcont'.trans hcont⟩
    · exact exists_iterating ha
  distinct b b' h₁ h₂ hb hb' hcont := by
    obtain ⟨h₁', hb, h₁eq⟩ := exists_of_iterating hb
    obtain ⟨h₂', hb', h₂eq⟩ := exists_of_iterating hb'
    exact hs.distinct b b' h₁' h₂' hb hb' (by rw [h₁eq, h₂eq, hcont])
  fresh b h' hb := by
    obtain ⟨h'', hb, heq⟩ := exists_of_iterating hb
    exact heq ▸ hs.fresh b h'' hb

theorem Guarded.enter (hs : Guarded s.frame.length s) {c : Collection}
    (hc : MeetsGuards s (.enter c)) (h : Enters c s s') : Guarded (s.frame.length + 1) s' ∧
      ∃ loop, s'.frame = s.frame ++ [loop] ∧ s'.outer = s.outer := by
  cases h with
  | stored hsh hcopy hplc ha => exact ⟨hs.raise ha, _, rfl, rfl⟩
  | copied hcopy hplc ha ht => simp [MeetsGuards, hcopy] at hc
  | @created t hsh ht =>
    have hfree : ¬ s.IsIterated t := by
      rintro ⟨h, hh, -⟩
      simp [ht] at hh
    let s₁ : GuardState := { s with
      headers := writeHeader s.headers t (some ⟨s.nextContainer, 0⟩)
      nextContainer := s.nextContainer + 1 }
    have hs₁ : Guarded s₁.frame.length s₁ := hs.write hfree
    have ht₁ : s₁.headers t = some ⟨s.nextContainer, 0⟩ := writeHeader_self _
    exact ⟨hs₁.raise ht₁, _, rfl, rfl⟩

theorem Guarded.release (hs : Guarded (m + 1) s) (hm : m < s.frame.length) :
    Guarded m (s.releaseGuard m) := by
  have hloop : s.frame[m]? = some s.frame[m] := getElem?_eq_getElem hm
  have htake : s.frame.take (m + 1) = s.frame.take m ++ [s.frame[m]] := by
    rw [take_add_one, hloop, Option.toList_some]
  obtain ⟨h, hh, hcont⟩ := hs.guards s.frame[m]
    (mem_append.2 (.inr (getElem_mem hm)))
  simp only [GuardState.releaseGuard, hloop]
  exact
    { counts := fun b h' hb => by
        have hcnts := hs.counts
        simp only [htake, ← append_assoc] at hcnts
        rcases iterating_eq_some.1 hb with ⟨rfl, h₀, hold, rfl⟩ | ⟨hne, hold⟩
        · obtain rfl : h = h₀ := Option.some.inj (hh.symm.trans hold)
          have hcnt := hcnts _ h hold
          rw [loopsOver_append, loopsOver_singleton, if_pos hcont.symm] at hcnt
          change h.iterating + -1 = _
          rw [hcnt]
          push_cast
          omega
        · have hcontainers : s.frame[m].container ≠ h'.container := fun heq =>
            hne (hs.distinct b _ h' h hold hh (heq.symm.trans hcont.symm))
          have hcnt := hcnts b h' hold
          rw [loopsOver_append, loopsOver_singleton, if_neg hcontainers] at hcnt
          simpa [-loopsOver_append] using hcnt
      guards := fun loop hloop => by
        obtain ⟨h', hh', hcont'⟩ := hs.guards loop hloop
        obtain ⟨h'', hh'', hcont''⟩ := exists_iterating (a := s.frame[m].guard) (n := -1) hh'
        exact ⟨h'', hh'', hcont''.trans hcont'⟩
      distinct := fun b b' h₁ h₂ hb hb' hcontainers => by
        obtain ⟨h₁', hb, h₁eq⟩ := exists_of_iterating hb
        obtain ⟨h₂', hb', h₂eq⟩ := exists_of_iterating hb'
        exact hs.distinct b b' h₁' h₂' hb hb' (by rw [h₁eq, h₂eq, hcontainers])
      fresh := fun b h' hb => by
        obtain ⟨h'', hb, heq⟩ := exists_of_iterating hb
        exact heq ▸ hs.fresh b h'' hb }

@[simp]
theorem GuardState.releaseGuard_frame (s : GuardState) (i : ℕ) :
    (s.releaseGuard i).frame = s.frame := by
  unfold releaseGuard
  split <;> rfl

@[simp]
theorem GuardState.releaseGuard_outer (s : GuardState) (i : ℕ) :
    (s.releaseGuard i).outer = s.outer := by
  unfold releaseGuard
  split <;> rfl

theorem Guarded.releaseGuards {floor : ℕ} (hfloor : floor ≤ m) (hs : Guarded m s)
    (hm : m ≤ s.frame.length) :
    Guarded floor (s.releaseGuards floor m) ∧ (s.releaseGuards floor m).frame = s.frame ∧
      (s.releaseGuards floor m).outer = s.outer := by
  induction m generalizing s with
  | zero =>
    obtain rfl : floor = 0 := Nat.le_zero.1 hfloor
    exact ⟨hs, rfl, rfl⟩
  | succ m ih =>
    rcases hfloor.lt_or_eq with hlt | rfl
    · have hle : floor ≤ m := Nat.lt_succ_iff.1 hlt
      simp only [GuardState.releaseGuards, if_pos hle]
      obtain ⟨h, hfrm, hout⟩ := ih hle (hs.release (by omega)) (by simp; omega)
      exact ⟨h, by simpa using hfrm, by simpa using hout⟩
    · rw [GuardState.releaseGuards, if_neg (Nat.not_succ_le_self m)]
      exact ⟨hs, rfl, rfl⟩

theorem Guarded.pop (hs : Guarded m s) (hm : m < s.frame.length) :
    Guarded m { s with frame := s.frame.dropLast } where
  counts a h ha := by
    have htake : s.frame.dropLast.take m = s.frame.take m := by
      rw [dropLast_eq_take, take_take, Nat.min_eq_left (by omega)]
    simpa [htake, -loopsOver_append] using hs.counts a h ha
  guards loop hloop := by
    refine hs.guards loop ?_
    rcases mem_append.1 hloop with hloop | hloop
    · exact mem_append.2 (.inl hloop)
    · exact mem_append.2 (.inr (dropLast_subset _ hloop))
  distinct := hs.distinct
  fresh := hs.fresh

theorem Guarded.call (hs : Guarded s.frame.length s) :
    Guarded 0 { s with outer := s.active, frame := [] } where
  counts a h ha := by simpa using hs.countsLoops a h ha
  guards loop hloop := hs.guards loop (by simpa [GuardState.active] using hloop)
  distinct := hs.distinct
  fresh := hs.fresh

theorem Guarded.resume (hs : Guarded 0 s') (hout : s'.outer = s.active) (hfrm : s'.frame = []) :
    Guarded s.frame.length { s' with outer := s.outer, frame := s.frame } where
  counts a h ha := by
    have := hs.counts a h ha
    simpa [hout, hfrm, GuardState.active] using this
  guards loop hloop := hs.guards loop (by
    simpa [GuardState.active, hout, hfrm] using hloop)
  distinct := hs.distinct
  fresh := hs.fresh

end Invariant

/-! ### Runs -/

/-- A context that fits a state: its guards are those of the frame, and the labeled loops have their
numbers and their floors. -/
structure EmitContext.Fits (c : EmitContext) (s : GuardState) : Prop where
  length : s.frame.length = c.iterationGuardCount
  id_lt : ∀ target ∈ c.labeledLoops, target.id < c.labeledLoops.length
  floor_le : ∀ target ∈ c.labeledLoops, target.guardFloor ≤ c.iterationGuardCount

/-- What holds where a run of a statement ends: a jump has released the guards of the loops that it
leaves. -/
def EndsWith (c : EmitContext) (s s' : GuardState) : Outcome → Prop
  | .halted => Guarded s'.frame.length s'
  | .jumped _ id => s'.frame = s.frame ∧ s'.outer = s.outer ∧
    ∃ target ∈ c.labeledLoops, target.id = id ∧ Guarded target.guardFloor s'
  | .returned => s'.frame = s.frame ∧ s'.outer = s.outer ∧ Guarded 0 s'
  | _ => s'.frame = s.frame ∧ s'.outer = s.outer ∧ Guarded s'.frame.length s'

section Contexts

variable {c : EmitContext} {s s' s'' : GuardState} {label : Option Text} {o : Outcome}

theorem EmitContext.Fits.congr (h : c.Fits s) (hfrm : s'.frame = s.frame) : c.Fits s' :=
  ⟨by rw [hfrm, h.length], h.id_lt, h.floor_le⟩

theorem fits_function (s : GuardState) (hs : s.frame = []) : EmitContext.function.Fits s where
  length := by simp [hs, EmitContext.function]
  id_lt := by simp [EmitContext.function]
  floor_le := by simp [EmitContext.function]

theorem EmitContext.Fits.loopBody (h : c.Fits s) (label : Option Text) :
    (c.loopBody label).Fits s := by
  cases label with
  | none => exact h
  | some label =>
    refine ⟨h.length, fun target htgt => ?_, fun target htgt => ?_⟩
    · rcases mem_cons.1 htgt with rfl | hmem
      · exact Nat.lt_succ_self _
      · exact Nat.lt_succ_of_lt (h.id_lt target hmem)
    · rcases mem_cons.1 htgt with rfl | hmem
      · exact le_rfl
      · exact h.floor_le target hmem

theorem EmitContext.Fits.pushGuard (h : c.Fits s) {loop : ActiveLoop}
    (hfrm : s'.frame = s.frame ++ [loop]) : c.pushGuard.Fits s' where
  length := by simp [hfrm, EmitContext.pushGuard, h.length]
  id_lt := h.id_lt
  floor_le target htgt := Nat.le_succ_of_le (h.floor_le target htgt)

theorem EndsWith.own (hc : c.Fits s) {isBreak : Bool} (hlab : label ≠ none)
    (h : EndsWith (c.loopBody label) s s' (.jumped isBreak c.labeledLoops.length)) :
    s'.frame = s.frame ∧ s'.outer = s.outer ∧ Guarded s'.frame.length s' := by
  obtain ⟨label, rfl⟩ := Option.ne_none_iff_exists'.1 hlab
  obtain ⟨hfrm, hout, target, htgt, hid, hs'⟩ := h
  refine ⟨hfrm, hout, ?_⟩
  rcases mem_cons.1 htgt with rfl | hmem
  · rwa [hfrm, hc.length]
  · exact absurd hid (hc.id_lt target hmem).ne

theorem EndsWith.continues (hc : c.Fits s) (ho : c.Continues label o)
    (h : EndsWith (c.loopBody label) s s' o) :
    s'.frame = s.frame ∧ s'.outer = s.outer ∧ Guarded s'.frame.length s' := by
  rcases ho with rfl | rfl | ⟨hlab, rfl⟩
  · exact h
  · exact h
  · exact h.own hc hlab

theorem EndsWith.breaks (hc : c.Fits s) (ho : c.Breaks label o)
    (h : EndsWith (c.loopBody label) s s' o) : EndsWith c s s' .normal := by
  rcases ho with rfl | ⟨hlab, rfl⟩
  · exact h
  · exact h.own hc hlab

theorem EndsWith.leaves (ho : c.Leaves label o) (h : EndsWith (c.loopBody label) s s' o) :
    EndsWith c s s' o := by
  rcases ho with rfl | ⟨isBreak, id, rfl, hid⟩
  · exact h
  · obtain ⟨hfrm, hout, target, htgt, htargetid, hs'⟩ := h
    refine ⟨hfrm, hout, target, ?_, htargetid, hs'⟩
    cases label with
    | none => exact htgt
    | some label =>
      rcases mem_cons.1 htgt with rfl | hmem
      · exact absurd htargetid.symm (hid (by simp))
      · exact hmem

theorem EndsWith.trans (hfrm : s'.frame = s.frame) (hout : s'.outer = s.outer)
    (h : EndsWith c s' s'' o) : EndsWith c s s'' o := by
  cases o <;> first | exact h | exact ⟨h.1.trans hfrm, h.2.1.trans hout, h.2.2⟩

theorem EndsWith.pop (hc : c.Fits s) {loop : ActiveLoop} (hfrm : s'.frame = s.frame ++ [loop])
    (hout : s'.outer = s.outer) (h : EndsWith c.pushGuard s' s'' o) (hnorm : o ≠ .normal)
    (hbroke : o ≠ .broke) (hcontinued : o ≠ .continued) (hhalt : o ≠ .halted) :
    EndsWith c s { s'' with frame := s''.frame.dropLast } o := by
  cases o with
  | normal => exact absurd rfl hnorm
  | broke => exact absurd rfl hbroke
  | continued => exact absurd rfl hcontinued
  | halted => exact absurd rfl hhalt
  | jumped isBreak id =>
    obtain ⟨hfrm', hout', target, htgt, hid, hs''⟩ := h
    have hlt : target.guardFloor < s''.frame.length := by
      have := hc.floor_le target htgt
      rw [hfrm', hfrm, length_append, hc.length]
      exact Nat.lt_succ_of_le this
    exact ⟨by simp [hfrm', hfrm], hout'.trans hout, target, htgt, hid, hs''.pop hlt⟩
  | returned =>
    obtain ⟨hfrm', hout', hs''⟩ := h
    exact ⟨by simp [hfrm', hfrm], hout'.trans hout, hs''.pop (by simp [hfrm', hfrm])⟩

end Contexts

variable {program : Text → LoopStatement} {condition : GuardState → GuardStep → Prop}

theorem Exec.loop_ne {c : EmitContext} {t : LoopStatement} {s s' : GuardState} {o : Outcome}
    (h : Exec program condition c t s o s') {label : Option Text} {body : LoopStatement}
    (ht : t = .loop label body) : o ≠ .broke ∧ o ≠ .continued := by
  induction h with
  | loopNext _ _ _ _ ih => exact ih ht
  | loopLeave _ ho _ =>
    rcases ho with rfl | ⟨isBreak, id, rfl, -⟩ <;> simp
  | _ => simp_all

theorem Exec.endsWith {c : EmitContext} {t : LoopStatement} {s s' : GuardState} {o : Outcome}
    (h : Exec program MeetsGuards c t s o s') (hc : c.Fits s) (hs : Guarded s.frame.length s) :
    EndsWith c s s' o := by
  induction h with
  | halt c t s => exact hs
  | simple _ h =>
    obtain ⟨hs', hfrm, hout⟩ := hs.performs h
    exact ⟨hfrm, hout, hs'⟩
  | simpleHalt _ h => exact (hs.performs h).1
  | @call c function s s' o h ho ih =>
    have hend := ih (fits_function _ rfl) (by simpa using hs.call)
    rcases ho with rfl | rfl
    · obtain ⟨hfrm, hout, hs'⟩ := hend
      exact ⟨rfl, rfl, (by simpa [hfrm] using hs' : Guarded 0 _).resume hout hfrm⟩
    · obtain ⟨hfrm, hout, hs'⟩ := hend
      exact ⟨rfl, rfl, hs'.resume hout hfrm⟩
  | callHalt h ih => exact ih (fits_function _ rfl) (by simpa using hs.call)
  | sequence _ _ ihfirst ihsecond =>
    obtain ⟨hfrm, hout, hs'⟩ := ihfirst hc hs
    exact (ihsecond (hc.congr hfrm) hs').trans hfrm hout
  | sequenceStop _ _ ih => exact ih hc hs
  | consequence _ ih => exact ih hc hs
  | alternative _ ih => exact ih hc hs
  | loopDone => exact ⟨rfl, rfl, hs⟩
  | loopNext _ ho _ ihbody ihnext =>
    obtain ⟨hfrm, hout, hs'⟩ := (ihbody (hc.loopBody _) hs).continues hc ho
    exact (ihnext (hc.congr hfrm) hs').trans hfrm hout
  | loopBreak _ ho ih => exact (ih (hc.loopBody _) hs).breaks hc ho
  | loopLeave _ ho ih => exact (ih (hc.loopBody _) hs).leaves ho
  | loopHalt _ ih => exact ih (hc.loopBody _) hs
  | @forEach c label collection binding body s s' s'' hcond henter hloop ih =>
    obtain ⟨hs', loop, hfrm, hout⟩ := hs.enter hcond henter
    obtain ⟨hfrm', hout', hs''⟩ := ih (hc.pushGuard hfrm) (by simpa [hfrm] using hs')
    have hlen : s''.frame.length = c.iterationGuardCount + 1 := by
      simp [hfrm', hfrm, hc.length]
    have hreleased := (hlen ▸ hs'').release (by omega : c.iterationGuardCount < s''.frame.length)
    have hpopped := hreleased.pop (by simp [hlen])
    refine ⟨by simp [hfrm', hfrm], by simp [hout', hout], ?_⟩
    simpa [hfrm', hfrm, hc.length] using hpopped
  | forEachLeave hcond henter hloop ho hhalt ih =>
    obtain ⟨hs', loop, hfrm, hout⟩ := hs.enter hcond henter
    have hend := ih (hc.pushGuard hfrm) (by simpa [hfrm] using hs')
    exact hend.pop hc hfrm hout ho (hloop.loop_ne rfl).1 (hloop.loop_ne rfl).2 hhalt
  | forEachHalt hcond henter _ ih =>
    obtain ⟨hs', loop, hfrm, hout⟩ := hs.enter hcond henter
    exact ih (hc.pushGuard hfrm) (by simpa [hfrm] using hs')
  | breakLoop => exact ⟨rfl, rfl, hs⟩
  | continueLoop => exact ⟨rfl, rfl, hs⟩
  | @labeledJump c isBreak label target s htgt =>
    have hmem : target ∈ c.labeledLoops := mem_of_find?_eq_some htgt
    rw [hc.length] at hs
    obtain ⟨hs', hfrm, hout⟩ := hs.releaseGuards (hc.floor_le target hmem) hc.length.ge
    exact ⟨hfrm, hout, target, hmem, rfl, hs'⟩
  | @«return» c s =>
    rw [hc.length] at hs
    obtain ⟨hs', hfrm, hout⟩ := hs.releaseGuards (Nat.zero_le _) hc.length.ge
    exact ⟨hfrm, hout, hs'⟩

/-! ### The calls of a program -/

theorem EndsWith.guarded {s s' : GuardState} {o : Outcome} (hs : s.frame = [])
    (h : EndsWith .function s s' o) : Guarded s'.frame.length s' := by
  cases o with
  | halted => exact h
  | jumped isBreak id =>
    obtain ⟨-, -, target, htgt, -⟩ := h
    exact absurd htgt not_mem_nil
  | returned =>
    obtain ⟨hfrm, -, hs'⟩ := h
    simpa [hfrm, hs] using hs'
  | normal => exact h.2.2
  | broke => exact h.2.2
  | continued => exact h.2.2

theorem Guarded.recover {s : GuardState} (hs : Guarded s.frame.length s)
    (h : MeetsGuards s .recover) : Guarded 0 { s with outer := [], frame := [] } where
  counts a h' ha := by
    have hcnt := hs.countsLoops a h' ha
    rw [show s.active = [] from h] at hcnt
    simpa using hcnt
  guards loop hloop := by simp [GuardState.active] at hloop
  distinct := hs.distinct
  fresh := hs.fresh

theorem Reaches.guarded {functions : List Text} {s s' : GuardState}
    (h : Reaches program MeetsGuards functions s s') (hfrm : s.frame = [])
    (hs : Guarded s.frame.length s) : Guarded s'.frame.length s' := by
  induction h with
  | here h => exact (h.endsWith (fits_function _ hfrm) hs).guarded hfrm
  | next h hcond _ ih =>
    have hs' := (h.endsWith (fits_function _ hfrm) hs).guarded hfrm
    exact ih rfl (hs'.recover hcond)

/-- `for_each` over the array or the map in a field. -/
def overField (isMap : Bool) : LoopStatement :=
  .sequence (.simple {[.create 0]}) (.forEach none ⟨isMap, .path, {0}⟩ {[]} (.simple {[]}))

end Grayscale.IterationGuards
