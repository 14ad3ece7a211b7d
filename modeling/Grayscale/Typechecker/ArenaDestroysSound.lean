import Grayscale.Typechecker.ArenaDestroys
import Mathlib.Data.Set.Insert

/-!
# No arena in sight is destroyed twice

The row of a handle is destroyed wherever its arena is destroyed in the sight of the checker. Behind
a scope the rows are those of the handles declared in it, which is why their declarations hide
arenas; the walk of a loop body begins with the rows in front of the loop, which is why an iteration
takes out of sight what the earlier ones have destroyed.
-/

namespace Grayscale.ArenaDestroys

open List Function

/-! ### Memory -/

/-- Handles stand for arenas that exist, no two for the same one; only arenas that exist have been
destroyed, and only those are in sight. -/
structure WellFormed (M : ArenaMemory) : Prop where
  handles_lt : ∀ {x n}, M.handles x = some n → n < M.next
  destroyed_lt : ∀ {n}, n ∈ M.destroyed → n < M.next
  unaliased : ∀ {x y n}, M.handles x = some n → M.handles y = some n → x = y
  inSight_destroyed : ∀ {n}, n ∈ M.inSight → n ∈ M.destroyed

/-- A memory later on: a handle that stands for an older arena has stood for it before. -/
structure Extends (M M' : ArenaMemory) : Prop where
  next_le : M.next ≤ M'.next
  handles : ∀ {x n}, M'.handles x = some n → n < M.next → M.handles x = some n
  destroyed : ∀ {n}, n ∈ M.destroyed → n ∈ M'.destroyed

theorem Extends.refl (M : ArenaMemory) : Extends M M := ⟨le_rfl, fun h _ => h, id⟩

variable {M : ArenaMemory}

theorem Extends.trans {M' M'' : ArenaMemory} (h : Extends M M') (h' : Extends M' M'') :
    Extends M M'' where
  next_le := h.next_le.trans h'.next_le
  handles hx hn := h.handles (h'.handles hx (hn.trans_le h.next_le)) hn
  destroyed hn := h'.destroyed (h.destroyed hn)

theorem WellFormed.empty : WellFormed .empty where
  handles_lt h := nomatch h
  destroyed_lt h := h.elim
  unaliased h := nomatch h
  inSight_destroyed h := h

@[simp] theorem ArenaMemory.create_handles_self (M : ArenaMemory) (handle : Text) :
    (M.create handle).handles handle = some M.next := update_self ..

theorem ArenaMemory.create_handles_of_ne (M : ArenaMemory) {handle x : Text} (h : x ≠ handle) :
    (M.create handle).handles x = M.handles x := update_of_ne h ..

theorem WellFormed.create (h : WellFormed M) (handle : Text) :
    WellFormed (M.create handle) ∧ Extends M (M.create handle) := by
  refine ⟨⟨?_, fun hn => (h.destroyed_lt hn).trans (Nat.lt_succ_self _), ?_,
    h.inSight_destroyed⟩, ⟨Nat.le_succ _, ?_, id⟩⟩
  · intro x n hx
    by_cases hxh : x = handle
    · subst hxh
      rw [ArenaMemory.create_handles_self] at hx
      cases hx
      exact Nat.lt_succ_self _
    · rw [M.create_handles_of_ne hxh] at hx
      exact (h.handles_lt hx).trans (Nat.lt_succ_self _)
  · intro x y n hx hy
    -- the arena that is created has been no handle's
    have hold {z : Text} (hz : z ≠ handle) (hzn : (M.create handle).handles z = some n) :
        M.handles z = some n := by
      rwa [M.create_handles_of_ne hz] at hzn
    have hnew {z : Text} (hz : z = handle) (hzn : (M.create handle).handles z = some n) :
        n = M.next := by
      subst hz
      rw [ArenaMemory.create_handles_self] at hzn
      exact (Option.some.inj hzn).symm
    by_cases hxh : x = handle <;> by_cases hyh : y = handle
    · rw [hxh, hyh]
    · exact absurd (h.handles_lt (hold hyh hy)) (hnew hxh hx ▸ Nat.lt_irrefl _)
    · exact absurd (h.handles_lt (hold hxh hx)) (hnew hyh hy ▸ Nat.lt_irrefl _)
    · exact h.unaliased (hold hxh hx) (hold hyh hy)
  · intro x n hx hn
    by_cases hxh : x = handle
    · subst hxh
      rw [ArenaMemory.create_handles_self] at hx
      cases hx
      exact absurd hn (Nat.lt_irrefl _)
    · rwa [M.create_handles_of_ne hxh] at hx

theorem WellFormed.destroy (h : WellFormed M) {arena : ℕ} {handle : Text}
    (hhandle : M.handles handle = some arena) :
    WellFormed (M.destroy arena) ∧ Extends M (M.destroy arena) := by
  refine ⟨⟨h.handles_lt, ?_, h.unaliased, ?_⟩, ⟨le_rfl, fun hx _ => hx, Set.mem_insert_of_mem _⟩⟩
  · rintro n (rfl | hn)
    · exact h.handles_lt hhandle
    · exact h.destroyed_lt hn
  · rintro n (rfl | hn)
    · exact Set.mem_insert _ _
    · exact Set.mem_insert_of_mem _ (h.inSight_destroyed hn)

theorem WellFormed.see (h : WellFormed M) {inSight : Set ℕ} (hsee : ∀ n ∈ inSight, n ∈ M.destroyed) :
    WellFormed { M with inSight := inSight } ∧ Extends M { M with inSight := inSight } :=
  ⟨⟨h.handles_lt, h.destroyed_lt, h.unaliased, fun hn => hsee _ hn⟩, le_rfl, fun hx _ => hx, id⟩

theorem WellFormed.hide (h : WellFormed M) (names : List Text) :
    WellFormed (M.hide names) ∧ Extends M (M.hide names) :=
  h.see fun _ hn => h.inSight_destroyed hn.1

theorem WellFormed.iterate (h : WellFormed M) (start : ArenaMemory) :
    WellFormed (M.iterate start) ∧ Extends M (M.iterate start) :=
  h.see fun _ hn => h.inSight_destroyed hn.1

theorem WellFormed.behindLoop {iteration : ArenaMemory} (h : WellFormed M)
    (hiter : WellFormed iteration) (hext : Extends iteration M) :
    WellFormed (M.behindLoop iteration) ∧ Extends M (M.behindLoop iteration) := by
  refine h.see ?_
  rintro n (hn | hn)
  · exact h.inSight_destroyed hn
  · exact hext.destroyed (hiter.inSight_destroyed hn)

theorem WellFormed.leave {M' : ArenaMemory} (h : WellFormed M) (h' : WellFormed M')
    (hext : Extends M M') (names : List Text) :
    WellFormed (M'.leave M names) ∧ Extends M (M'.leave M names) := by
  -- a handle of the outside stands for what it stood for, or for a newer arena
  have hback {x : Text} {n : ℕ} (hx : (M'.leave M names).handles x = some n) :
      (x ∈ names ∧ M.handles x = some n) ∨ (x ∉ names ∧ M'.handles x = some n) := by
    by_cases hnam : x ∈ names
    · exact .inl ⟨hnam, by simpa [ArenaMemory.leave, ArenaMemory.hide, hnam] using hx⟩
    · exact .inr ⟨hnam, by simpa [ArenaMemory.leave, ArenaMemory.hide, hnam] using hx⟩
  refine ⟨⟨?_, h'.destroyed_lt, ?_, fun hn => h'.inSight_destroyed hn.1⟩,
    ⟨hext.next_le, ?_, hext.destroyed⟩⟩
  · intro x n hx
    obtain ⟨-, hx⟩ | ⟨-, hx⟩ := hback hx
    · exact (h.handles_lt hx).trans_le hext.next_le
    · exact h'.handles_lt hx
  · intro x y n hx hy
    obtain ⟨-, hx⟩ | ⟨-, hx⟩ := hback hx <;> obtain ⟨-, hy⟩ | ⟨-, hy⟩ := hback hy
    · exact h.unaliased hx hy
    · exact h.unaliased hx (hext.handles hy (h.handles_lt hx))
    · exact h.unaliased (hext.handles hx (h.handles_lt hy)) hy
    · exact h'.unaliased hx hy
  · intro x n hx hn
    obtain ⟨-, hx⟩ | ⟨-, hx⟩ := hback hx
    · exact hx
    · exact hext.handles hx hn

variable {result : Option ArenaMemory}

theorem Exec.wellFormed {meets : ArenaMemory → Text → Prop} {body : ArenaBody}
    (h : Exec meets body M result) (hM : WellFormed M) :
    ∀ M', result = some M' → WellFormed M' ∧ Extends M M' := by
  induction h with
  | done => rintro _ ⟨⟩; exact ⟨hM, .refl _⟩
  | arena => rintro _ ⟨⟩; exact hM.create _
  | destroy hmt hhandle hlive => rintro _ ⟨⟩; exact hM.destroy hhandle
  | destroyTwice => rintro _ ⟨⟩
  | reset => rintro _ ⟨⟩; exact ⟨hM, .refl _⟩
  | resetDestroyed => rintro _ ⟨⟩
  | sequence hfst hsnd ihfirst ihsecond =>
    intro M'' hM''
    obtain ⟨hmid, hext⟩ := ihfirst hM _ rfl
    obtain ⟨hend, hext'⟩ := ihsecond hmid M'' hM''
    exact ⟨hend, hext.trans hext'⟩
  | sequenceTwice => rintro _ ⟨⟩
  | block h ih =>
    rintro _ ⟨⟩
    obtain ⟨hin, hext⟩ := ih hM _ rfl
    exact hM.leave hin hext _
  | blockTwice => rintro _ ⟨⟩
  | consequence h ih => exact ih hM
  | alternative h ih => exact ih hM
  | loopEnd => rintro _ ⟨⟩; exact hM.hide _
  | loopTwice => rintro _ ⟨⟩
  | @loopStep body M M' result h hrest ih ihrest =>
    intro M'' hM''
    obtain ⟨after, rfl, rfl⟩ := Option.map_eq_some_iff.mp hM''
    obtain ⟨hiter, hext⟩ := ih hM _ rfl
    obtain ⟨hnext, hextendsNext⟩ := hiter.iterate M
    obtain ⟨haft, hextendsAfter⟩ := ihrest hnext _ rfl
    have hbeh := haft.behindLoop hiter (hextendsNext.trans hextendsAfter)
    exact ⟨hbeh.1, ((hext.trans hextendsNext).trans hextendsAfter).trans hbeh.2⟩

/-! ### Rows -/

@[simp] theorem changeRow_self (rows : ArenaRows) (name : Text) (change : ArenaRow → ArenaRow) :
    changeRow rows name change name = change (rows name) := update_self ..

theorem changeRow_of_ne (rows : ArenaRows) {name x : Text} (h : x ≠ name)
    (change : ArenaRow → ArenaRow) : changeRow rows name change x = rows x := update_of_ne h ..

/-- The row of a handle is destroyed where its arena is destroyed in sight. -/
def Tracks (rows : ArenaRows) (M : ArenaMemory) : Prop :=
  ∀ {x n}, M.handles x = some n → n ∈ M.inSight → (rows x).isDestroyed = true

theorem Tracks.join {live other : ArenaRows} (h : Tracks live M ∨ Tracks other M) :
    Tracks (pointerCheckerJoin live other) M := by
  intro x n hx hn
  rw [pointerCheckerJoin, Bool.or_eq_true]
  exact h.imp (fun h => h hx hn) (fun h => h hx hn)

variable {rows : ArenaRows}

theorem Tracks.arena (hM : WellFormed M) (h : Tracks rows M) (handle : Text) :
    Tracks (changeRow rows handle fun row => { row with isDestroyed := false })
      (M.create handle) := by
  intro x n hx hn
  by_cases hxh : x = handle
  · subst hxh
    rw [ArenaMemory.create_handles_self] at hx
    cases hx
    exact absurd (hM.destroyed_lt (hM.inSight_destroyed hn)) (Nat.lt_irrefl _)
  · rw [M.create_handles_of_ne hxh] at hx
    rw [changeRow_of_ne rows hxh]
    exact h hx hn

theorem Tracks.destroy (hM : WellFormed M) (h : Tracks rows M) {handle : Text} {arena : ℕ}
    (hhandle : M.handles handle = some arena) :
    Tracks (changeRow rows handle fun row => { row with isDestroyed := true })
      (M.destroy arena) := by
  intro x n hx hn
  by_cases hxh : x = handle
  · subst hxh
    rw [changeRow_self]
  · rw [changeRow_of_ne rows hxh]
    obtain rfl | hn := hn
    · exact absurd (hM.unaliased hx hhandle) hxh
    · exact h hx hn

theorem ArenaBody.check_keeps (body : ArenaBody) {x : Text} (hx : x ∉ body.bound)
    (h : (rows x).isDestroyed = true) : ((body.check rows).1 x).isDestroyed = true := by
  induction body generalizing rows with
  | done => exact h
  | arena isDeclaration handle =>
    rw [ArenaBody.bound, mem_singleton] at hx
    change (changeRow rows handle _ x).isDestroyed = true
    rwa [changeRow_of_ne rows hx]
  | destroy handle =>
    rw [ArenaBody.check]
    split_ifs with hrow
    · exact h
    · change (changeRow rows handle _ x).isDestroyed = true
      by_cases hxh : x = handle
      · rw [hxh, changeRow_self]
      · rwa [changeRow_of_ne rows hxh]
  | reset handle =>
    rw [ArenaBody.check]
    split_ifs with hrow
    · exact h
    · exact h
  | sequence first second ihfirst ihsecond =>
    rw [ArenaBody.bound, mem_append, not_or] at hx
    exact ihsecond hx.2 (ihfirst hx.1 h)
  | block body ih => exact ih hx h
  | branch consequence alternative ihconsequence ihalternative =>
    rw [ArenaBody.bound, mem_append, not_or] at hx
    exact Bool.or_eq_true_iff.mpr (.inl (ihalternative hx.2 h))
  | loop body ih => exact ih hx h

/-- Where nothing is reported for a body, no execution that follows the checker destroys an arena
twice in it, and the rows behind it are right. -/
theorem Exec.safe {body : ArenaBody} (h : Exec Follows body M result) (hM : WellFormed M)
    (hrows : Tracks rows M) (hchk : (body.check rows).2 = []) :
    ∃ M', result = some M' ∧ Tracks (body.check rows).1 M' := by
  induction h generalizing rows with
  | done => exact ⟨_, rfl, hrows⟩
  | arena => exact ⟨_, rfl, hrows.arena hM _⟩
  | destroy hmt hhandle hlive =>
    rw [ArenaBody.check] at hchk ⊢
    split_ifs at hchk ⊢ with hrow
    exact ⟨_, rfl, hrows.destroy hM hhandle⟩
  | destroyTwice hmt hhandle hdead =>
    have hrow := hrows hhandle (hmt _ hhandle hdead)
    rw [ArenaBody.check, hrow, Bool.true_or, if_pos rfl] at hchk
    cases hchk
  | reset hmt hhandle hlive =>
    rw [ArenaBody.check] at hchk ⊢
    split_ifs at hchk ⊢ with hrow
    exact ⟨_, rfl, hrows⟩
  | resetDestroyed hmt hhandle hdead =>
    have hrow := hrows hhandle (hmt _ hhandle hdead)
    rw [ArenaBody.check, if_pos hrow] at hchk
    cases hchk
  | sequence hfst hsnd ihfirst ihsecond =>
    obtain ⟨hfirstNil, hsecondNil⟩ := append_eq_nil_iff.mp hchk
    obtain ⟨_, ⟨⟩, hmid⟩ := ihfirst hM hrows hfirstNil
    exact ihsecond (hfst.wellFormed hM _ rfl).1 hmid hsecondNil
  | sequenceTwice hfst ih =>
    obtain ⟨_, ⟨⟩, -⟩ := ih hM hrows (append_eq_nil_iff.mp hchk).1
  | @block body M M' h ih =>
    obtain ⟨_, ⟨⟩, hin⟩ := ih hM hrows hchk
    refine ⟨_, rfl, fun {x n} hx hn => ?_⟩
    by_cases hnam : x ∈ body.declared
    · -- the declaration in the block hides the arena of the handle outside
      exact absurd hx (hn.2 x hnam)
    · refine hin ?_ hn.1
      simpa [ArenaMemory.leave, ArenaMemory.hide, hnam] using hx
  | blockTwice h ih =>
    obtain ⟨_, ⟨⟩, -⟩ := ih hM hrows hchk
  | consequence h ih =>
    obtain ⟨M', rfl, haft⟩ := ih hM hrows (append_eq_nil_iff.mp hchk).1
    exact ⟨M', rfl, Tracks.join (.inr haft)⟩
  | alternative h ih =>
    obtain ⟨M', rfl, haft⟩ := ih hM hrows (append_eq_nil_iff.mp hchk).2
    exact ⟨M', rfl, Tracks.join (.inl haft)⟩
  | @loopEnd body M =>
    refine ⟨_, rfl, fun {x n} hx hn => ?_⟩
    exact body.check_keeps (fun hbnd => hn.2 x hbnd hx) (hrows hx hn.1)
  | loopTwice h ih =>
    obtain ⟨_, ⟨⟩, -⟩ := ih hM hrows hchk
  | @loopStep body M M' result h hrest ih ihrest =>
    obtain ⟨_, ⟨⟩, hiterationRows⟩ := ih hM hrows hchk
    obtain ⟨hiter, hext⟩ := h.wellFormed hM _ rfl
    obtain ⟨hnext, hextendsNext⟩ := hiter.iterate M
    -- in the next iteration only what was in sight before the loop is so
    have hnextRows : Tracks rows (M'.iterate M) := by
      intro x n hx hn
      have hlt := hM.destroyed_lt (hM.inSight_destroyed hn.2)
      exact hrows (hext.handles hx hlt) hn.2
    obtain ⟨after, rfl, haft⟩ := ihrest hnext hnextRows hchk
    have hextendsAfter := (hrest.wellFormed hnext _ rfl).2
    refine ⟨_, rfl, fun {x n} hx hn => ?_⟩
    obtain hn | hn := hn
    · exact haft hx hn
    · have hlt := hiter.destroyed_lt (hiter.inSight_destroyed hn)
      exact hiterationRows ((hextendsNext.trans hextendsAfter).handles hx hlt) hn

/-! ### Deferred destroys -/

theorem changeRow_pending (rows : ArenaRows) (handle x : Text) (isDestroyed : Bool) :
    (changeRow rows handle (fun row => { row with isDestroyed := isDestroyed })
      x).isEnsureDestroyPending = (rows x).isEnsureDestroyPending := by
  by_cases hxh : x = handle
  · rw [hxh, changeRow_self]
  · rw [changeRow_of_ne rows hxh]

theorem ArenaBody.check_pending (body : ArenaBody) (rows : ArenaRows) (x : Text) :
    ((body.check rows).1 x).isEnsureDestroyPending = (rows x).isEnsureDestroyPending := by
  induction body generalizing rows with
  | done => rfl
  | arena isDeclaration handle => exact changeRow_pending rows handle x false
  | destroy handle =>
    rw [ArenaBody.check]
    split_ifs with hrow
    · rfl
    · exact changeRow_pending rows handle x true
  | reset handle =>
    rw [ArenaBody.check]
    split_ifs with hrow
    · rfl
    · rfl
  | sequence first second ihfirst ihsecond => exact (ihsecond _).trans (ihfirst rows)
  | block body ih => exact ih rows
  | branch consequence alternative ihconsequence ihalternative => exact ihalternative rows
  | loop body ih => exact ih rows

/-- An arena whose destroy is pending has not been destroyed. -/
def Separate (rows : ArenaRows) : Prop :=
  ∀ x, (rows x).isEnsureDestroyPending = true → (rows x).isDestroyed = false

theorem Separate.check (h : Separate rows) {body : ArenaBody} (hchk : (body.check rows).2 = []) :
    Separate (body.check rows).1 := by
  induction body generalizing rows with
  | done => exact h
  | arena isDeclaration handle =>
    intro x hx
    change (changeRow rows handle _ x).isDestroyed = false
    by_cases hxh : x = handle
    · rw [hxh, changeRow_self]
    · rw [changeRow_of_ne rows hxh]
      exact h x ((changeRow_pending rows handle x false).symm.trans hx)
  | destroy handle =>
    rw [ArenaBody.check] at hchk ⊢
    split_ifs at hchk ⊢ with hrow
    intro x hx
    rw [changeRow_pending] at hx
    change (changeRow rows handle _ x).isDestroyed = false
    by_cases hxh : x = handle
    · subst hxh
      exact absurd (by rw [hx, Bool.or_true]) hrow
    · rw [changeRow_of_ne rows hxh]
      exact h x hx
  | reset handle =>
    rw [ArenaBody.check] at hchk ⊢
    split_ifs at hchk ⊢ with hrow
    exact h
  | sequence first second ihfirst ihsecond =>
    obtain ⟨hfst, hsnd⟩ := append_eq_nil_iff.mp hchk
    exact ihsecond (ihfirst h hfst) hsnd
  | block body ih => exact ih h hchk
  | branch consequence alternative ihconsequence ihalternative =>
    obtain ⟨hconsequence, halternative⟩ := append_eq_nil_iff.mp hchk
    intro x hx
    have hpend : (rows x).isEnsureDestroyPending = true :=
      (alternative.check_pending rows x).symm.trans hx
    refine Bool.or_eq_false_iff.mpr ⟨?_, ?_⟩
    · exact ihalternative h halternative x hx
    · exact ihconsequence h hconsequence x ((consequence.check_pending rows x).trans hpend)
  | loop body ih => exact ih h hchk

theorem exec_destroyAll {deferred : List Text} (h : Exec Follows (destroyAll deferred) M result)
    (hM : WellFormed M) (hnd : deferred.Nodup)
    (hlive : ∀ x ∈ deferred, ∀ n, M.handles x = some n → n ∉ M.inSight) : result ≠ none := by
  induction deferred generalizing M with
  | nil => cases h with | done => exact Option.some_ne_none _
  | cons x deferred ih =>
    obtain ⟨hx, hnd⟩ := nodup_cons.mp hnd
    cases h with
    | sequence hfst hsnd =>
      cases hfst with
      | @destroy _ _ arena hmt hhandle hnot =>
        refine ih hsnd (hM.destroy hhandle).1 hnd fun y hy n hn => ?_
        rintro (rfl | hsight)
        · exact hx (hM.unaliased hn hhandle ▸ hy)
        · exact hlive y (mem_cons_of_mem _ hy) n hn hsight
    | sequenceTwice hfst =>
      cases hfst with
      | destroyTwice hmt hhandle hdead =>
        exact absurd (hmt _ hhandle hdead) (hlive x mem_cons_self _ hhandle)

/-- Where nothing is reported for the rest of a function, no execution of it that follows the
checker destroys an arena twice. -/
theorem FunctionExec.safe {f : ArenaFunction} {deferred : List Text}
    (h : FunctionExec Follows f deferred M result) (hM : WellFormed M) (hrows : Tracks rows M)
    (hnd : deferred.Nodup) (hpend : ∀ x ∈ deferred, (rows x).isEnsureDestroyPending = true)
    (hseparate : Separate rows) (hchk : (checkFunction f rows).2 = []) : result ≠ none := by
  induction h generalizing rows with
  | exit h =>
    refine exec_destroyAll h hM hnd fun x hx n hn hsight => ?_
    have hrow := hrows hn hsight
    rw [hseparate x (hpend x hx)] at hrow
    cases hrow
  | @plain body rest deferred M M' result h hrest ih =>
    obtain ⟨hbody, hothers⟩ := append_eq_nil_iff.mp hchk
    obtain ⟨_, ⟨⟩, haft⟩ := h.safe hM hrows hbody
    refine ih (h.wellFormed hM _ rfl).1 haft hnd (fun x hx => ?_) (hseparate.check hbody)
      hothers
    exact (body.check_pending rows x).trans (hpend x hx)
  | plainTwice h =>
    obtain ⟨_, ⟨⟩, -⟩ := h.safe hM hrows (append_eq_nil_iff.mp hchk).1
  | @ensureDestroy handle rest deferred M result h ih =>
    rw [checkFunction] at hchk
    split_ifs at hchk with hrow
    rw [Bool.or_eq_true, not_or] at hrow
    have hdead (x : Text) : (changeRow rows handle (fun row =>
        { row with isEnsureDestroyPending := true }) x).isDestroyed = (rows x).isDestroyed := by
      by_cases hxh : x = handle
      · rw [hxh, changeRow_self]
      · rw [changeRow_of_ne rows hxh]
    refine ih hM ?_ ?_ ?_ ?_ hchk
    · intro x n hx hn
      exact (hdead x).trans (hrows hx hn)
    · refine nodup_cons.mpr ⟨fun hmem => ?_, hnd⟩
      exact hrow.2 (hpend handle hmem)
    · intro x hx
      by_cases hxh : x = handle
      · rw [hxh, changeRow_self]
      · rw [changeRow_of_ne rows hxh]
        exact hpend x (mem_of_ne_of_mem hxh hx)
    · intro x hx
      rw [hdead]
      by_cases hxh : x = handle
      · rw [hxh]
        exact Bool.eq_false_iff.mpr hrow.1
      · rw [changeRow_of_ne rows hxh] at hx
        exact hseparate x hx

/-- Where E3166 is not reported, no execution destroys or resets an arena that has been destroyed,
by a statement or by the deferred destroys at the end, as long as its destroys and resets follow the
checker: the arena of the handle has not been destroyed in an earlier iteration of a loop that still
runs, and since it has been destroyed there has been no declaration of the same name in a block that
has ended and no loop, left without an iteration, that binds the name. -/
theorem destroyErrors_sound {f : ArenaFunction} (h : destroyErrors f = []) :
    ¬ DestroysTwice Follows f := by
  intro htwice
  have hrows : Tracks (fun _ => ⟨false, false⟩) .empty := fun hx _ => nomatch hx
  exact htwice.safe .empty hrows nodup_nil (fun x hx => nomatch hx) (fun x hx => nomatch hx) h
    rfl

/-- An arena that is reset, and destroyed at the end of the function. -/
theorem destroyErrors_sound_deferred :
    ¬ DestroysTwice Follows [.plain (.arena true (bytes "a")), .ensureDestroy (bytes "a"),
      .plain (.loop (.reset (bytes "a")))] := destroyErrors_sound (by decide)

/-- `mut a = mem.arena(64)` and `while c { mem.destroy(a) }`: nothing is reported, and the second
iteration destroys the arena again. -/
theorem not_destroyErrors_loop :
    ¬ ∀ f : ArenaFunction, destroyErrors f = [] → ¬ DestroysTwice (fun _ _ => True) f := by
  intro h
  refine h [.plain (.arena true (bytes "a")), .plain (.loop (.destroy (bytes "a")))] (by decide) ?_
  have hhandle : (ArenaMemory.empty.create (bytes "a")).handles (bytes "a") = some 0 :=
    ArenaMemory.create_handles_self ..
  -- the memory in front of the second iteration
  let M := (ArenaMemory.empty.create (bytes "a"))
  let M' := ((M.destroy 0).leave M []).iterate M
  have hfst : Exec (fun _ _ => True) (.destroy (bytes "a")) M (some (M.destroy 0)) :=
    .destroy trivial hhandle (Set.notMem_empty 0)
  have hsnd : Exec (fun _ _ => True) (.destroy (bytes "a")) M' none :=
    .destroyTwice trivial hhandle (Set.mem_insert 0 _)
  exact .plain .arena (.plainTwice (.loopStep (.block hfst) (.loopTwice (.blockTwice hsnd))))

end Grayscale.ArenaDestroys
