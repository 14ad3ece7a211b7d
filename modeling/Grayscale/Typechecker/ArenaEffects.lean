import Grayscale.Typechecker.ArenaLifetimes

/-!
# What a statement does to the arenas

A statement only changes the names that occur in it. The arenas that the checker has before a
statement stay in their places, and what is destroyed or reset in the statement is so in the checker
afterwards, whichever branch it is in; an execution destroys and resets no other arena.
-/

namespace Grayscale

open List

/-! ### What occurs in a statement -/

/-- Whether a statement gives a handle a new arena, or declares its name. -/
def ArenaStatement.creates (name : Text) : ArenaStatement → Bool
  | .arena _ handle => handle == name
  | s => s.declares name

/-- Whether a statement assigns to a pointer, or uses its name for an arena. -/
def ArenaStatement.assigns (name : Text) : ArenaStatement → Bool
  | .arena _ handle => handle == name
  | .allocate isDeclaration pointer _ => !isDeclaration && pointer == name
  | _ => false

def ArenaStatement.destroys (name : Text) : ArenaStatement → Bool
  | .destroy handle => handle == name
  | _ => false

def ArenaStatement.resets (name : Text) : ArenaStatement → Bool
  | .reset handle => handle == name
  | _ => false

def Occurs (p : Text → ArenaStatement → Bool) (l : List ArenaStatement) (name : Text) : Prop :=
  ∃ s ∈ l, p name s = true

instance (p : Text → ArenaStatement → Bool) (l : List ArenaStatement) (name : Text) :
    Decidable (Occurs p l name) := inferInstanceAs (Decidable (∃ s ∈ l, p name s = true))

section Occurs

variable {p : Text → ArenaStatement → Bool} {l l' : List ArenaStatement} {name : Text}

theorem Occurs.mono (h : Occurs p l name) (hsub : l ⊆ l') : Occurs p l' name :=
  let ⟨s, hs, hp⟩ := h
  ⟨s, hsub hs, hp⟩

theorem occurs_append : Occurs p (l ++ l') name ↔ Occurs p l name ∨ Occurs p l' name := by
  constructor
  · rintro ⟨s, hs, hp⟩
    rcases mem_append.mp hs with hs | hs
    · exact Or.inl ⟨s, hs, hp⟩
    · exact Or.inr ⟨s, hs, hp⟩
  · rintro (⟨s, hs, hp⟩ | ⟨s, hs, hp⟩)
    · exact ⟨s, mem_append_left _ hs, hp⟩
    · exact ⟨s, mem_append_right _ hs, hp⟩

theorem occurs_singleton {s : ArenaStatement} : Occurs p [s] name ↔ p name s = true :=
  ⟨fun ⟨_, hs, hp⟩ => mem_singleton.mp hs ▸ hp, fun hp => ⟨s, mem_singleton_self s, hp⟩⟩

theorem occurs_cons {s : ArenaStatement} :
    Occurs p (s :: l) name ↔ p name s = true ∨ Occurs p l name := by
  rw [← singleton_append, occurs_append, occurs_singleton]

theorem not_occurs_nil : ¬ Occurs p [] name := fun ⟨_, hs, _⟩ => absurd hs not_mem_nil

end Occurs

theorem subset_of_has {bodies : ArenaCases} {body : ArenaBlock} (h : bodies.Has body) :
    body.subtree ⊆ bodies.subtree := by
  induction h with
  | head => exact subset_append_left ..
  | tail _ ih => exact List.Subset.trans ih (subset_append_right ..)

/-! ### Rows in their places -/

/-- The rows of a list stand in a relation to the first rows of another one, except for those of a
name that has been seen before. -/
inductive RowsPrefix (R : ArenaLifetime → ArenaLifetime → Prop) :
    List Text → List ArenaLifetime → List ArenaLifetime → Prop
  | nil {seen : List Text} {l : List ArenaLifetime} : RowsPrefix R seen [] l
  | cons {seen : List Text} {row row' : ArenaLifetime} {l l' : List ArenaLifetime}
    (hname : row'.name = row.name) (hrow : row.name ∉ seen → R row row')
    (h : RowsPrefix R (row.name :: seen) l l') : RowsPrefix R seen (row :: l) (row' :: l')

section RowsPrefix

variable {R R' R'' : ArenaLifetime → ArenaLifetime → Prop} {seen : List Text}
  {l l' l'' : List ArenaLifetime}

theorem RowsPrefix.imp (h : RowsPrefix R seen l l') (himp : ∀ row row', R row row' → R' row row') :
    RowsPrefix R' seen l l' := by
  induction h with
  | nil => exact .nil
  | cons hname hrow _ ih => exact .cons hname (fun hseen => himp _ _ (hrow hseen)) ih

theorem RowsPrefix.refl (hrefl : ∀ row, R row row) : RowsPrefix R seen l l := by
  induction l generalizing seen with
  | nil => exact .nil
  | cons row l ih => exact .cons rfl (fun _ => hrefl row) ih

theorem RowsPrefix.trans (h : RowsPrefix R seen l l') (h' : RowsPrefix R' seen l' l'')
    (htrans : ∀ a b c, R a b → R' b c → R'' a c) : RowsPrefix R'' seen l l'' := by
  induction h generalizing l'' with
  | nil => exact .nil
  | cons hname hrow _ ih =>
    cases h' with
    | cons hname' hrow' hrest =>
      rw [hname] at hrow' hrest
      exact .cons (hname'.trans hname) (fun hseen => htrans _ _ _ (hrow hseen) (hrow' hseen))
        (ih hrest)

theorem RowsPrefix.join (h : RowsPrefix R seen l l') (h' : RowsPrefix R' seen l l'')
    (hjoin : ∀ row live other, R row live → R' row other → R'' row (joinArena live other)) :
    RowsPrefix R'' seen l (pointerCheckerJoin l' l'') := by
  induction h generalizing l'' with
  | nil => exact .nil
  | cons hname hrow _ ih =>
    cases h' with
    | cons _ hrow' hrest =>
      exact .cons hname (fun hseen => hjoin _ _ _ (hrow hseen) (hrow' hseen)) (ih hrest)

theorem RowsPrefix.arenaGet (h : RowsPrefix R seen l l') {name : Text} {row : ArenaLifetime}
    (hseen : name ∉ seen) (hrow : arenaGet l name = some row) :
    ∃ row', Grayscale.arenaGet l' name = some row' ∧ R row row' := by
  induction h with
  | nil => cases hrow
  | @cons seen first first' rest rest' hname hfst _ ih =>
    unfold Grayscale.arenaGet at hrow ⊢ ih
    rw [find?_cons] at hrow ⊢
    rw [hname]
    cases hfnd : first.name == name with
    | true =>
      rw [hfnd] at hrow
      obtain rfl := Option.some.inj hrow
      rw [← beq_iff_eq.mp hfnd] at hseen
      exact ⟨first', rfl, hfst hseen⟩
    | false =>
      rw [hfnd] at hrow
      refine ih (fun hmem => ?_) hrow
      rcases mem_cons.mp hmem with heq | hmem
      · exact beq_eq_false_iff_ne.mp hfnd heq.symm
      · exact hseen hmem

theorem RowsPrefix.arenaGet_join (h : RowsPrefix R seen l l') (h' : RowsPrefix R' seen l l'')
    {name : Text} {row : ArenaLifetime} (hrow : Grayscale.arenaGet l name = some row) :
    ∃ live other, Grayscale.arenaGet l' name = some live ∧ Grayscale.arenaGet l'' name = some other ∧
      Grayscale.arenaGet (pointerCheckerJoin l' l'') name = some (joinArena live other) := by
  induction h generalizing l'' with
  | nil => cases hrow
  | @cons seen first live rest rest' hname _ _ ih =>
    cases h' with
    | @cons _ _ other _ rest'' hname' _ hrest =>
      unfold Grayscale.arenaGet at hrow ⊢ ih
      rw [find?_cons] at hrow
      rw [find?_cons, find?_cons, pointerCheckerJoin, find?_cons, hname, hname',
        show (joinArena live other).name = first.name from hname]
      cases hfnd : first.name == name with
      | true => exact ⟨live, other, rfl, rfl, rfl⟩
      | false =>
        rw [hfnd] at hrow
        exact ih hrest hrow

theorem rowsPrefix_arenaEnsure {change : ArenaLifetime → ArenaLifetime} {name : Text}
    (hname : ∀ row, (change row).name = row.name)
    (hrefl : ∀ row : ArenaLifetime, row.name ≠ name → R row row)
    (hchange : ∀ row : ArenaLifetime, row.name = name → R row (change row)) :
    RowsPrefix R seen l (arenaEnsure change name l) := by
  induction l generalizing seen with
  | nil => exact .nil
  | cons row l ih =>
    rw [arenaEnsure]
    by_cases hrow : row.name = name
    · rw [if_pos (beq_iff_eq.mpr hrow)]
      refine .cons (hname row) (fun _ => hchange row hrow) ?_
      -- Later rows of the name are never found.
      have hrest : ∀ (rest : List ArenaLifetime) (seen : List Text), name ∈ seen →
          RowsPrefix R seen rest rest := fun rest => by
        induction rest with
        | nil => exact fun _ _ => .nil
        | cons other rest ih' =>
          intro seen hmem
          refine .cons rfl (fun hoth => hrefl other fun heq => ?_)
            (ih' _ (mem_cons_of_mem _ hmem))
          rw [heq] at hoth
          exact hoth hmem
      exact hrest l _ (hrow ▸ mem_cons_self ..)
    · rw [if_neg (fun h => hrow (beq_iff_eq.mp h))]
      exact .cons rfl (fun _ => hrefl row hrow) ih

end RowsPrefix

theorem arenaGet_arenaEnsure (change : ArenaLifetime → ArenaLifetime) {name : Text}
    (hname : ∀ row, (change row).name = row.name) (l : List ArenaLifetime) :
    arenaGet (arenaEnsure change name l) name =
      some (change ((arenaGet l name).getD ⟨name, false, false, 0⟩)) := by
  induction l with
  | nil =>
    rw [arenaEnsure, arenaGet, find?_cons, hname, beq_self_eq_true]
    rfl
  | cons row l ih =>
    rw [arenaEnsure]
    cases hrow : row.name == name with
    | true =>
      rw [if_pos rfl, arenaGet, arenaGet, find?_cons, find?_cons, hname, hrow]
      rfl
    | false =>
      rw [if_neg Bool.false_ne_true, arenaGet, find?_cons, hrow]
      rw [show arenaGet (row :: l) name = arenaGet l name by
        rw [arenaGet, find?_cons, hrow]; rfl]
      exact ih

/-! ### The effect on the rows -/

/-- What a part of a body does to the row of an arena. -/
structure RowStep (l : List ArenaStatement) (row row' : ArenaLifetime) : Prop where
  name : row'.name = row.name
  premarked : row.isPremarkedDestroyed = true → row'.isPremarkedDestroyed = true
  destroyed : ¬ Occurs ArenaStatement.creates l row.name → row.isDestroyed = true →
    row'.isDestroyed = true
  epoch : ¬ Occurs ArenaStatement.creates l row.name → row.epoch ≤ row'.epoch
  destroys : ¬ Occurs ArenaStatement.creates l row.name →
    Occurs ArenaStatement.destroys l row.name → row'.isDestroyed = true
  resets : ¬ Occurs ArenaStatement.creates l row.name → Occurs ArenaStatement.resets l row.name →
    row.epoch < row'.epoch

structure RowGrows (row row' : ArenaLifetime) : Prop where
  name : row'.name = row.name
  premarked : row.isPremarkedDestroyed = true → row'.isPremarkedDestroyed = true
  destroyed : row.isDestroyed = true → row'.isDestroyed = true
  epoch : row.epoch ≤ row'.epoch

theorem RowGrows.refl (row : ArenaLifetime) : RowGrows row row := ⟨rfl, id, id, le_rfl⟩

section RowStep

variable {l l' : List ArenaStatement} {row row' row'' : ArenaLifetime}

theorem RowGrows.rowStep (h : RowGrows row row')
    (hkill : ¬ Occurs ArenaStatement.destroys l row.name)
    (hresets : ¬ Occurs ArenaStatement.resets l row.name) : RowStep l row row' where
  name := h.name
  premarked := h.premarked
  destroyed _ := h.destroyed
  epoch _ := h.epoch
  destroys _ hoccurs := absurd hoccurs hkill
  resets _ hoccurs := absurd hoccurs hresets

theorem RowStep.trans (h : RowStep l row row') (h' : RowStep l' row' row'') :
    RowStep (l ++ l') row row'' := by
  have hspl : ¬ Occurs ArenaStatement.creates (l ++ l') row.name →
      ¬ Occurs ArenaStatement.creates l row.name ∧ ¬ Occurs ArenaStatement.creates l' row'.name :=
    fun hmk => by
      rw [occurs_append, not_or] at hmk
      rwa [h.name]
  refine ⟨h'.name.trans h.name, fun hmrk => h'.premarked (h.premarked hmrk),
    fun hmk hdead => ?_, fun hmk => ?_, fun hmk hkill => ?_, fun hmk hresets => ?_⟩
  · obtain ⟨hl, hl'⟩ := hspl hmk
    exact h'.destroyed hl' (h.destroyed hl hdead)
  · obtain ⟨hl, hl'⟩ := hspl hmk
    exact Nat.le_trans (h.epoch hl) (h'.epoch hl')
  · obtain ⟨hl, hl'⟩ := hspl hmk
    rcases occurs_append.mp hkill with hkill | hkill
    · exact h'.destroyed hl' (h.destroys hl hkill)
    · exact h'.destroys hl' (by rwa [h.name])
  · obtain ⟨hl, hl'⟩ := hspl hmk
    rcases occurs_append.mp hresets with hresets | hresets
    · exact Nat.lt_of_lt_of_le (h.resets hl hresets) (h'.epoch hl')
    · exact Nat.lt_of_le_of_lt (h.epoch hl) (h'.resets hl' (by rwa [h.name]))

theorem RowStep.join {live other : ArenaLifetime} (h : RowStep l row live)
    (h' : RowStep l' row other) : RowStep (l ++ l') row (joinArena live other) := by
  have hspl : ¬ Occurs ArenaStatement.creates (l ++ l') row.name →
      ¬ Occurs ArenaStatement.creates l row.name ∧ ¬ Occurs ArenaStatement.creates l' row.name :=
    fun hmk => by rwa [occurs_append, not_or] at hmk
  refine ⟨h.name, h.premarked, fun hmk hdead => ?_, fun hmk => ?_,
    fun hmk hkill => ?_, fun hmk hresets => ?_⟩
  · exact Bool.or_eq_true _ _ |>.mpr (Or.inl (h.destroyed (hspl hmk).1 hdead))
  · exact Nat.le_trans (h.epoch (hspl hmk).1) (Nat.le_max_left ..)
  · refine Bool.or_eq_true _ _ |>.mpr ?_
    rcases occurs_append.mp hkill with hkill | hkill
    · exact Or.inl (h.destroys (hspl hmk).1 hkill)
    · exact Or.inr (h'.destroys (hspl hmk).2 hkill)
  · rcases occurs_append.mp hresets with hresets | hresets
    · exact Nat.lt_of_lt_of_le (h.resets (hspl hmk).1 hresets) (Nat.le_max_left ..)
    · exact Nat.lt_of_lt_of_le (h'.resets (hspl hmk).2 hresets) (Nat.le_max_right ..)

theorem RowStep.cons {s : ArenaStatement} (h : RowStep l row row')
    (hkill : s.destroys row.name = false) (hresets : s.resets row.name = false) :
    RowStep (s :: l) row row' := by
  have hmk : ¬ Occurs ArenaStatement.creates (s :: l) row.name →
      ¬ Occurs ArenaStatement.creates l row.name :=
    fun hmk hl => hmk (hl.mono (subset_cons_self ..))
  refine ⟨h.name, h.premarked, fun hc => h.destroyed (hmk hc), fun hc => h.epoch (hmk hc),
    fun hc hoccurs => h.destroys (hmk hc) ?_, fun hc hoccurs => h.resets (hmk hc) ?_⟩
  · rw [occurs_cons, hkill] at hoccurs
    exact hoccurs.resolve_left Bool.false_ne_true
  · rw [occurs_cons, hresets] at hoccurs
    exact hoccurs.resolve_left Bool.false_ne_true

end RowStep

theorem RowStep.congr {l l' : List ArenaStatement} {row row' : ArenaLifetime}
    (h : RowStep l row row') (hl : ∀ s, s ∈ l ↔ s ∈ l') : RowStep l' row row' := by
  have hoccurs : ∀ p name, Occurs p l name ↔ Occurs p l' name :=
    fun p name => exists_congr fun s => and_congr_left fun _ => hl s
  exact ⟨h.name, h.premarked, fun hc => h.destroyed (hc ∘ (hoccurs _ _).mp),
    fun hc => h.epoch (hc ∘ (hoccurs _ _).mp),
    fun hc hd => h.destroys (hc ∘ (hoccurs _ _).mp) ((hoccurs _ _).mpr hd),
    fun hc hr => h.resets (hc ∘ (hoccurs _ _).mp) ((hoccurs _ _).mpr hr)⟩

theorem RowsPrefix.joinSteps {l l' : List ArenaStatement} {seen : List Text}
    {before live other : List ArenaLifetime} (h : RowsPrefix (RowStep l) seen before live)
    (h' : RowsPrefix (RowStep l') seen before other) :
    RowsPrefix (RowStep (l ++ l')) seen before (pointerCheckerJoin live other) :=
  h.join h' fun _ _ _ => RowStep.join

theorem RowStep.refl (row : ArenaLifetime) : RowStep [] row row :=
  (RowGrows.refl row).rowStep not_occurs_nil not_occurs_nil

theorem creates_of_declares {s : ArenaStatement} {name : Text} (h : s.declares name = true) :
    s.creates name = true := by
  cases s with
  | arena isDeclaration handle =>
    rw [ArenaStatement.declares, Bool.and_eq_true] at h
    exact h.2
  | allocate | loop => exact h
  | destroy | reset | dereference | block | ifStatement | whenStatement => cases h

theorem not_declaredInSubtree {body : ArenaBlock} {name : Text}
    (h : ¬ Occurs ArenaStatement.creates body.subtree name) : declaredInSubtree body name = false := by
  rw [← Bool.not_eq_true]
  intro hdecl
  obtain ⟨s, hs, hname⟩ := any_eq_true.mp hdecl
  exact h ⟨s, hs, creates_of_declares hname⟩

/-! ### The marks of a loop -/

/-- What the marks of a loop do to the row of an arena. -/
structure PremarkStep (body : ArenaBlock) (l : List ArenaStatement) (row row' : ArenaLifetime) :
    Prop where
  grows : RowGrows row row'
  destroys : declaredInSubtree body row.name = false →
    Occurs ArenaStatement.destroys l row.name → row'.isPremarkedDestroyed = true
  resets : declaredInSubtree body row.name = false →
    Occurs ArenaStatement.resets l row.name → row.epoch < row'.epoch

theorem PremarkStep.trans {body : ArenaBlock} {l l' : List ArenaStatement}
    {row row' row'' : ArenaLifetime} (h : PremarkStep body l row row')
    (h' : PremarkStep body l' row' row'') : PremarkStep body (l ++ l') row row'' := by
  refine ⟨⟨h'.grows.name.trans h.grows.name, fun hp => h'.grows.premarked (h.grows.premarked hp),
    fun hd => h'.grows.destroyed (h.grows.destroyed hd),
    Nat.le_trans h.grows.epoch h'.grows.epoch⟩, fun hdecl hoccurs => ?_, fun hdecl hoccurs => ?_⟩
  · rcases occurs_append.mp hoccurs with hoccurs | hoccurs
    · exact h'.grows.premarked (h.destroys hdecl hoccurs)
    · exact h'.destroys (by rwa [h.grows.name]) (by rwa [h.grows.name])
  · rcases occurs_append.mp hoccurs with hoccurs | hoccurs
    · exact Nat.lt_of_lt_of_le (h.resets hdecl hoccurs) h'.grows.epoch
    · exact Nat.lt_of_le_of_lt h.grows.epoch
        (h'.resets (by rwa [h.grows.name]) (by rwa [h.grows.name]))

theorem PremarkStep.refl_of_not_occurs {body : ArenaBlock} {s : ArenaStatement} (row : ArenaLifetime)
    (hkill : s.destroys row.name = false) (hresets : s.resets row.name = false) :
    PremarkStep body [s] row row := by
  refine ⟨RowGrows.refl row, fun _ hoccurs => ?_, fun _ hoccurs => ?_⟩
  · rw [occurs_singleton, hkill] at hoccurs
    cases hoccurs
  · rw [occurs_singleton, hresets] at hoccurs
    cases hoccurs

theorem rowsPrefix_premarkStatement (body : ArenaBlock) (s : ArenaStatement)
    (arenas : List ArenaLifetime) :
    RowsPrefix (PremarkStep body [s]) [] arenas (premarkStatement body arenas s) := by
  cases s with
  | destroy handle =>
    rw [premarkStatement]
    split_ifs with hdecl
    · refine RowsPrefix.refl fun row => ⟨RowGrows.refl row, fun hnot hoccurs => ?_,
        fun _ hoccurs => ?_⟩
      · rw [← beq_iff_eq.mp (occurs_singleton.mp hoccurs), hdecl] at hnot
        cases hnot
      · exact nomatch (occurs_singleton.mp hoccurs)
    · refine rowsPrefix_arenaEnsure (fun _ => rfl) (fun row hrow => ?_) (fun row hrow => ?_)
      · exact PremarkStep.refl_of_not_occurs row (beq_eq_false_iff_ne.mpr hrow.symm) rfl
      · refine ⟨⟨rfl, fun _ => rfl, id, le_rfl⟩, fun _ _ => rfl, fun _ hoccurs => ?_⟩
        exact nomatch (occurs_singleton.mp hoccurs)
  | reset handle =>
    rw [premarkStatement]
    split_ifs with hdecl
    · refine RowsPrefix.refl fun row => ⟨RowGrows.refl row, fun _ hoccurs => ?_,
        fun hnot hoccurs => ?_⟩
      · exact nomatch (occurs_singleton.mp hoccurs)
      · rw [← beq_iff_eq.mp (occurs_singleton.mp hoccurs), hdecl] at hnot
        cases hnot
    · refine rowsPrefix_arenaEnsure (fun _ => rfl) (fun row hrow => ?_) (fun row hrow => ?_)
      · exact PremarkStep.refl_of_not_occurs row rfl (beq_eq_false_iff_ne.mpr hrow.symm)
      · refine ⟨⟨rfl, id, id, Nat.le_succ _⟩, fun _ hoccurs => ?_, fun _ _ => Nat.lt_succ_self _⟩
        exact nomatch (occurs_singleton.mp hoccurs)
  | arena | allocate | dereference | block | ifStatement | whenStatement | loop =>
    exact RowsPrefix.refl fun row => PremarkStep.refl_of_not_occurs row rfl rfl

theorem rowsPrefix_foldl_premarkStatement (body : ArenaBlock) (l : List ArenaStatement)
    (arenas : List ArenaLifetime) :
    RowsPrefix (PremarkStep body l) [] arenas (l.foldl (premarkStatement body) arenas) := by
  induction l generalizing arenas with
  | nil =>
    exact RowsPrefix.refl fun row => ⟨RowGrows.refl row, fun _ h => absurd h not_occurs_nil,
      fun _ h => absurd h not_occurs_nil⟩
  | cons s l ih =>
    exact (rowsPrefix_premarkStatement body s arenas).trans (ih _) fun _ _ _ => PremarkStep.trans

theorem rowsPrefix_premarkLoopBody (body : ArenaBlock) (arenas : List ArenaLifetime) :
    RowsPrefix (PremarkStep body body.subtree) [] arenas (premarkLoopBody body arenas) :=
  rowsPrefix_foldl_premarkStatement body body.subtree arenas

/-! ### The effect on the checker -/

def ArenaStatement.declaredNames (s : ArenaStatement) : List Text :=
  (ArenaBlock.cons s .nil).declaredNames

theorem ArenaBlock.declared_cons (s : ArenaStatement) (rest : ArenaBlock) :
    (ArenaBlock.cons s rest).declaredNames = s.declaredNames ++ rest.declaredNames := by
  cases s with
  | arena isDeclaration | allocate isDeclaration => cases isDeclaration <;> rfl
  | destroy | reset | dereference | block | ifStatement | whenStatement | loop => rfl

/-- What a part of a body does to the checker. -/
structure CheckEffect (l : List ArenaStatement) (names : List Text)
    (checker after : PointerChecker) : Prop where
  rows : RowsPrefix (RowStep l) [] checker.arenas after.arenas
  symbols : ∀ pointer, ¬ Occurs ArenaStatement.assigns l pointer → pointer ∉ names →
    after.symbols pointer = checker.symbols pointer

theorem rowStep_self {s : ArenaStatement} {row : ArenaLifetime}
    (hkill : s.destroys row.name = false) (hresets : s.resets row.name = false) : RowStep [s] row row :=
  (RowStep.refl row).cons hkill hresets

theorem effect_arena (isDeclaration : Bool) (handle : Text) (names : List Text)
    (checker : PointerChecker) :
    CheckEffect [.arena isDeclaration handle] names checker (bindArena handle checker) where
  rows := rowsPrefix_arenaEnsure (fun _ => rfl) (fun _ _ => rowStep_self rfl rfl) (fun row hrow => by
    have hmk : Occurs ArenaStatement.creates [.arena isDeclaration handle] row.name :=
      occurs_singleton.mpr (beq_iff_eq.mpr hrow.symm)
    exact ⟨rfl, id, fun h => absurd hmk h, fun h => absurd hmk h,
      fun h => absurd hmk h, fun h => absurd hmk h⟩)
  symbols pointer hasgn _ := by
    refine Function.update_of_ne (fun heq => hasgn ?_) _ _
    exact occurs_singleton.mpr (beq_iff_eq.mpr heq.symm)

theorem effect_allocate (isDeclaration : Bool) (pointer handle : Text)
    (checker : PointerChecker) : CheckEffect [.allocate isDeclaration pointer handle]
      (ArenaStatement.allocate isDeclaration pointer handle).declaredNames
      checker (bindMemPointer pointer handle checker) where
  rows := rowsPrefix_arenaEnsure (fun _ => rfl) (fun _ _ => rowStep_self rfl rfl)
    (fun _ _ => rowStep_self rfl rfl)
  symbols name hasgn hnam := by
    refine Function.update_of_ne (fun heq => ?_) _ _
    cases isDeclaration with
    | true => exact hnam (heq ▸ mem_singleton_self _)
    | false => exact hasgn (occurs_singleton.mpr (beq_iff_eq.mpr heq.symm))

theorem effect_destroy {handle : Text} {checker : PointerChecker}
    (h : (applyArenaLifecycle destroyArena handle checker).2 = []) :
    CheckEffect [.destroy handle] [] checker (applyArenaLifecycle destroyArena handle checker).1 := by
  unfold applyArenaLifecycle at h ⊢
  split_ifs at h ⊢
  refine ⟨rowsPrefix_arenaEnsure (fun _ => rfl) (fun row hrow => ?_) (fun row hrow => ?_),
    fun _ _ _ => rfl⟩
  · exact rowStep_self (beq_eq_false_iff_ne.mpr hrow.symm) rfl
  · exact ⟨rfl, id, fun _ _ => rfl, fun _ => le_rfl, fun _ _ => rfl,
      fun _ hresets => nomatch (occurs_singleton.mp hresets)⟩

theorem effect_reset {handle : Text} {checker : PointerChecker}
    (h : (applyArenaLifecycle resetArena handle checker).2 = []) :
    CheckEffect [.reset handle] [] checker (applyArenaLifecycle resetArena handle checker).1 := by
  unfold applyArenaLifecycle at h ⊢
  split_ifs at h ⊢
  refine ⟨rowsPrefix_arenaEnsure (fun _ => rfl) (fun row hrow => ?_) (fun row hrow => ?_),
    fun _ _ _ => rfl⟩
  · exact rowStep_self rfl (beq_eq_false_iff_ne.mpr hrow.symm)
  · exact ⟨rfl, id, fun _ => id, fun _ => Nat.le_succ _,
      fun _ hkill => (nomatch occurs_singleton.mp hkill), fun _ _ => Nat.lt_succ_self _⟩

/-- What is merged of the bodies of a `when` so far. -/
def MergedStep (before : List ArenaLifetime) (l : List ArenaStatement) :
    Option (List ArenaLifetime) → Prop
  | none => l = []
  | some arenas => RowsPrefix (RowStep l) [] before arenas

theorem mergedStep_mergeBody {before : List ArenaLifetime} {l l' : List ArenaStatement}
    {merged : Option (List ArenaLifetime)} {checked : PointerChecker}
    (h : MergedStep before l merged) (hbody : RowsPrefix (RowStep l') [] before checked.arenas) :
    MergedStep before (l ++ l') (some (mergeBody checked merged)) := by
  cases merged with
  | none =>
    rw [show l = [] from h, nil_append]
    exact hbody
  | some arenas =>
    refine (hbody.joinSteps h).imp fun _ _ hstep => hstep.congr fun s => ?_
    rw [mem_append, mem_append, or_comm]

theorem CheckEffect.scope {body : ArenaBlock} {checker : PointerChecker}
    {checked : PointerChecker × List ArenaError}
    (h : CheckEffect body.subtree body.declaredNames checker checked.1) :
    CheckEffect body.subtree [] checker (leaveChecked body checker checked).1 := by
  refine ⟨h.rows, fun pointer hasgn _ => ?_⟩
  change leaveScope body.declaredNames checker.symbols _ pointer = _
  rw [leaveScope]
  split_ifs with hnam
  · rfl
  · exact h.symbols pointer hasgn hnam

mutual

theorem ArenaStatement.checkEffect : ∀ (s : ArenaStatement) (checker : PointerChecker),
    (s.check checker).2 = [] → CheckEffect s.subtree s.declaredNames checker (s.check checker).1
  | .arena isDeclaration handle, checker, _ => effect_arena isDeclaration handle _ checker
  | .allocate isDeclaration pointer handle, checker, _ =>
    effect_allocate isDeclaration pointer handle checker
  | .destroy handle, checker, h => effect_destroy h
  | .reset handle, checker, h => effect_reset h
  | .dereference pointer, checker, _ =>
    ⟨RowsPrefix.refl fun _ => rowStep_self rfl rfl, fun _ _ _ => rfl⟩
  | .block body, checker, h => by
    have hbody := (body.checkEffect checker h).scope
    exact ⟨hbody.rows.imp fun _ _ hstep => hstep.cons rfl rfl,
      fun pointer hasgn => hbody.symbols pointer fun ho => hasgn (ho.mono (subset_cons_self ..))⟩
  | .ifStatement consequence alternative, checker, h => by
    obtain ⟨hthen, helse⟩ := append_eq_nil_iff.mp h
    have hconsequence := (consequence.checkEffect checker hthen).scope
    have halternative := (alternative.checkEffect _ helse).scope
    refine ⟨(halternative.rows.joinSteps hconsequence.rows).imp fun _ _ hstep => ?_,
      fun pointer hasgn hnam => ?_⟩
    · refine (hstep.congr fun s => ?_).cons rfl rfl
      rw [mem_append, mem_append, or_comm]
    · rw [ArenaStatement.subtree, occurs_cons, occurs_append, not_or, not_or] at hasgn
      exact (halternative.symbols pointer hasgn.2.2 not_mem_nil).trans
        (hconsequence.symbols pointer hasgn.2.1 not_mem_nil)
  | .whenStatement isStrict hasDefault bodies, checker, h => by
    obtain ⟨hmrg, hsymbols⟩ := bodies.checkEffect checker.arenas none checker [] rfl h
    refine ⟨?_, fun pointer hasgn _ => hsymbols pointer fun ho =>
      hasgn (ho.mono (subset_cons_self ..))⟩
    change RowsPrefix _ _ _ (settleWhen isStrict hasDefault checker.arenas _)
    rw [nil_append] at hmrg
    cases hres : (bodies.check checker.arenas none checker).2.1 with
    | none =>
      rw [hres] at hmrg
      refine RowsPrefix.refl fun row => ?_
      rw [ArenaStatement.subtree, show bodies.subtree = [] from hmrg]
      exact rowStep_self rfl rfl
    | some arenas =>
      rw [hres] at hmrg
      rw [settleWhen]
      split_ifs
      · have hbef : RowsPrefix (RowStep []) [] checker.arenas checker.arenas :=
          RowsPrefix.refl RowStep.refl
        exact (hbef.joinSteps hmrg).imp fun _ _ hstep => hstep.cons rfl rfl
      · exact RowsPrefix.imp hmrg fun _ _ hstep => hstep.cons rfl rfl
  | .loop loopNames body, checker, h => by
    have hbody := (body.checkEffect _ h).scope
    have hmarks := rowsPrefix_premarkLoopBody body checker.arenas
    refine ⟨hmarks.trans hbody.rows fun row marked after hmark hstep => ?_,
      fun pointer hasgn => hbody.symbols pointer fun ho =>
        hasgn (ho.mono (subset_cons_self ..))⟩
    have hgro : RowStep [] row marked := hmark.grows.rowStep not_occurs_nil not_occurs_nil
    exact RowStep.cons (hgro.trans hstep) rfl rfl

theorem ArenaBlock.checkEffect : ∀ (body : ArenaBlock) (checker : PointerChecker),
    (body.check checker).2 = [] →
      CheckEffect body.subtree body.declaredNames checker (body.check checker).1
  | .nil, checker, _ => ⟨RowsPrefix.refl RowStep.refl, fun _ _ _ => rfl⟩
  | .cons s rest, checker, h => by
    obtain ⟨hfst, hrest⟩ := append_eq_nil_iff.mp h
    have hs := s.checkEffect checker hfst
    have hbody := rest.checkEffect _ hrest
    refine ⟨hs.rows.trans hbody.rows fun _ _ _ => RowStep.trans, fun pointer hasgn hnam => ?_⟩
    rw [ArenaBlock.subtree, occurs_append, not_or] at hasgn
    rw [ArenaBlock.declared_cons, mem_append, not_or] at hnam
    exact (hbody.symbols pointer hasgn.2 hnam.2).trans (hs.symbols pointer hasgn.1 hnam.1)

theorem ArenaCases.checkEffect : ∀ (bodies : ArenaCases) (before : List ArenaLifetime)
    (merged : Option (List ArenaLifetime)) (checker : PointerChecker) (l : List ArenaStatement),
    MergedStep before l merged → (bodies.check before merged checker).2.2 = [] →
      MergedStep before (l ++ bodies.subtree) (bodies.check before merged checker).2.1 ∧
        ∀ pointer, ¬ Occurs ArenaStatement.assigns bodies.subtree pointer →
          (bodies.check before merged checker).1.symbols pointer = checker.symbols pointer
  | .nil, before, merged, checker, l, hmrg, _ => by
    rw [ArenaCases.subtree, append_nil]
    exact ⟨hmrg, fun _ _ => rfl⟩
  | .cons body rest, before, merged, checker, l, hmrg, h => by
    obtain ⟨hfst, hrest⟩ := append_eq_nil_iff.mp h
    have hbody := (body.checkEffect { checker with arenas := before } hfst).scope
    obtain ⟨hres, hsymbols⟩ := rest.checkEffect before _ _ (l ++ body.subtree)
      (mergedStep_mergeBody hmrg hbody.rows) hrest
    rw [append_assoc] at hres
    refine ⟨hres, fun pointer hasgn => ?_⟩
    rw [ArenaCases.subtree, occurs_append, not_or] at hasgn
    exact (hsymbols pointer hasgn.2).trans (hbody.symbols pointer hasgn.1 not_mem_nil)

end

/-! ### The effect of an execution -/

/-- Handles stand for different arenas, whose numbers are given. -/
structure ArenaMemory.Distinct (memory : ArenaMemory) : Prop where
  bound : ∀ handle arena, memory.handles handle = some arena → arena < memory.next
  injective : ∀ handle handle' arena, memory.handles handle = some arena →
    memory.handles handle' = some arena → handle = handle'

/-- What a part of a body does to the memory. -/
structure MemoryEffect (l : List ArenaStatement) (names : List Text) (memory after : ArenaMemory) :
    Prop where
  handles : ∀ handle, ¬ Occurs ArenaStatement.creates l handle →
    after.handles handle = memory.handles handle
  pointers : ∀ pointer, ¬ Occurs ArenaStatement.assigns l pointer → pointer ∉ names →
    after.pointers pointer = memory.pointers pointer
  destroyed : ∀ handle arena, memory.handles handle = some arena →
    ¬ Occurs ArenaStatement.creates l handle → ¬ Occurs ArenaStatement.destroys l handle →
      after.isDestroyed arena = memory.isDestroyed arena
  resets : ∀ handle arena, memory.handles handle = some arena →
    ¬ Occurs ArenaStatement.creates l handle → ¬ Occurs ArenaStatement.resets l handle →
      after.resets arena = memory.resets arena
  next : memory.next ≤ after.next
  fresh : ∀ handle arena, after.handles handle = some arena →
    memory.handles handle = some arena ∨ memory.next ≤ arena
  distinct : after.Distinct

theorem MemoryEffect.refl {memory : ArenaMemory} (h : memory.Distinct) (l : List ArenaStatement)
    (names : List Text) : MemoryEffect l names memory memory :=
  ⟨fun _ _ => rfl, fun _ _ _ => rfl, fun _ _ _ _ _ => rfl, fun _ _ _ _ _ => rfl, le_rfl,
    fun _ _ h => Or.inl h, h⟩

section MemoryEffect

variable {l l' : List ArenaStatement} {names names' : List Text}
  {memory middle after : ArenaMemory}

theorem MemoryEffect.mono (h : MemoryEffect l names memory after) (hl : l ⊆ l')
    (hnam : names ⊆ names') : MemoryEffect l' names' memory after :=
  ⟨fun x hc => h.handles x fun ho => hc (ho.mono hl),
    fun p ha hn => h.pointers p (fun ho => ha (ho.mono hl)) fun hp => hn (hnam hp),
    fun x a hx hc hd => h.destroyed x a hx (fun ho => hc (ho.mono hl)) fun ho => hd (ho.mono hl),
    fun x a hx hc hr => h.resets x a hx (fun ho => hc (ho.mono hl)) fun ho => hr (ho.mono hl),
    h.next, h.fresh, h.distinct⟩

theorem MemoryEffect.trans (h : MemoryEffect l names memory middle)
    (h' : MemoryEffect l' names' middle after) :
    MemoryEffect (l ++ l') (names ++ names') memory after where
  handles x hc := by
    rw [occurs_append, not_or] at hc
    exact (h'.handles x hc.2).trans (h.handles x hc.1)
  pointers p ha hn := by
    rw [occurs_append, not_or] at ha
    rw [mem_append, not_or] at hn
    exact (h'.pointers p ha.2 hn.2).trans (h.pointers p ha.1 hn.1)
  destroyed x a hx hc hd := by
    rw [occurs_append, not_or] at hc hd
    exact (h'.destroyed x a ((h.handles x hc.1).trans hx) hc.2 hd.2).trans
      (h.destroyed x a hx hc.1 hd.1)
  resets x a hx hc hr := by
    rw [occurs_append, not_or] at hc hr
    exact (h'.resets x a ((h.handles x hc.1).trans hx) hc.2 hr.2).trans
      (h.resets x a hx hc.1 hr.1)
  next := Nat.le_trans h.next h'.next
  fresh x a hx := by
    rcases h'.fresh x a hx with hmid | hnew
    · exact h.fresh x a hmid
    · exact Or.inr (Nat.le_trans h.next hnew)
  distinct := h'.distinct

theorem MemoryEffect.leave (h : MemoryEffect l names memory after) (hmemory : memory.Distinct)
    (hnam : ∀ x ∈ names, Occurs ArenaStatement.creates l x) :
    MemoryEffect l [] memory (after.leave names memory) := by
  have hfr : ∀ x a, (after.leave names memory).handles x = some a →
      memory.handles x = some a ∨ (after.handles x = some a ∧ memory.next ≤ a) := by
    intro x a hx
    change leaveScope names memory.handles after.handles x = some a at hx
    rw [leaveScope] at hx
    split_ifs at hx with hmem
    · exact Or.inl hx
    · exact (h.fresh x a hx).imp_right fun hnew => ⟨hx, hnew⟩
  refine ⟨fun x hc => ?_, fun p ha _ => ?_, h.destroyed, h.resets, h.next,
    fun x a hx => (hfr x a hx).imp_right And.right, fun x a hx => ?_, fun x y a hx hy => ?_⟩
  · change leaveScope names memory.handles after.handles x = _
    rw [leaveScope, if_neg fun hmem => hc (hnam x hmem)]
    exact h.handles x hc
  · change leaveScope names memory.pointers after.pointers p = _
    rw [leaveScope]
    split_ifs with hmem
    · rfl
    · exact h.pointers p ha hmem
  · rcases hfr x a hx with hold | ⟨hnew, -⟩
    · exact Nat.lt_of_lt_of_le (hmemory.bound x a hold) h.next
    · exact h.distinct.bound x a hnew
  · rcases hfr x a hx with hold | ⟨hnew, hge⟩
    · rcases hfr y a hy with hold' | ⟨-, hge⟩
      · exact hmemory.injective x y a hold hold'
      · exact absurd (hmemory.bound x a hold) (Nat.not_lt_of_le hge)
    · rcases hfr y a hy with hold' | ⟨hnew', -⟩
      · exact absurd (hmemory.bound y a hold') (Nat.not_lt_of_le hge)
      · exact h.distinct.injective x y a hnew hnew'

end MemoryEffect

def ArenaTask.subtree : ArenaTask → List ArenaStatement
  | .statement s => s.subtree
  | .scope b => b.subtree
  | .statements b => b.subtree

def ArenaTask.declaredNames : ArenaTask → List Text
  | .statement s => s.declaredNames
  | .scope _ => []
  | .statements b => b.declaredNames

theorem occurs_of_mem_declared {body : ArenaBlock} {name : Text}
    (h : name ∈ body.declaredNames) : Occurs ArenaStatement.creates body.subtree name := by
  match body, h with
  | .cons s rest, h =>
    rw [ArenaBlock.declared_cons, mem_append] at h
    rw [ArenaBlock.subtree, occurs_append]
    rcases h with h | h
    · refine Or.inl ?_
      cases s with
      | arena isDeclaration handle =>
        cases isDeclaration with
        | true => exact occurs_singleton.mpr (beq_iff_eq.mpr (mem_singleton.mp h).symm)
        | false => exact absurd h not_mem_nil
      | allocate isDeclaration pointer handle =>
        cases isDeclaration with
        | true => exact occurs_singleton.mpr (beq_iff_eq.mpr (mem_singleton.mp h).symm)
        | false => exact absurd h not_mem_nil
      | destroy | reset | dereference | block | ifStatement | whenStatement | loop =>
        exact absurd h not_mem_nil
    · exact Or.inr (occurs_of_mem_declared h)

theorem memoryEffect_create {memory : ArenaMemory} (h : memory.Distinct) {isDeclaration : Bool}
    {handle : Text} (names : List Text) :
    MemoryEffect [.arena isDeclaration handle] names memory (memory.create handle) := by
  have hhands : ∀ x, x ≠ handle → (memory.create handle).handles x = memory.handles x :=
    fun x hx => Function.update_of_ne hx _ _
  have hself : (memory.create handle).handles handle = some memory.next := Function.update_self ..
  have hne : ∀ x a, memory.handles x = some a → a ≠ memory.next :=
    fun x a hx => Nat.ne_of_lt (h.bound x a hx)
  have hfr : ∀ x a, (memory.create handle).handles x = some a →
      (x ≠ handle ∧ memory.handles x = some a) ∨ (x = handle ∧ a = memory.next) := by
    intro x a hx
    by_cases heq : x = handle
    · rw [heq, hself] at hx
      exact Or.inr ⟨heq, (Option.some.inj hx).symm⟩
    · rw [hhands x heq] at hx
      exact Or.inl ⟨heq, hx⟩
  refine ⟨fun x hc => hhands x fun heq => hc (occurs_singleton.mpr (beq_iff_eq.mpr heq.symm)),
    fun _ _ _ => rfl, fun x a hx _ _ => Function.update_of_ne (hne x a hx) _ _,
    fun x a hx _ _ => Function.update_of_ne (hne x a hx) _ _, Nat.le_succ _, fun x a hx => ?_,
    fun x a hx => ?_, fun x y a hx hy => ?_⟩
  · rcases hfr x a hx with ⟨-, hold⟩ | ⟨-, rfl⟩
    · exact Or.inl hold
    · exact Or.inr le_rfl
  · rcases hfr x a hx with ⟨-, hold⟩ | ⟨-, rfl⟩
    · exact Nat.lt_succ_of_lt (h.bound x a hold)
    · exact Nat.lt_succ_self _
  · rcases hfr x a hx with ⟨-, hold⟩ | ⟨rfl, rfl⟩
    · rcases hfr y a hy with ⟨-, hold'⟩ | ⟨-, rfl⟩
      · exact h.injective x y a hold hold'
      · exact absurd rfl (hne x _ hold)
    · rcases hfr y _ hy with ⟨-, hold'⟩ | ⟨rfl, -⟩
      · exact absurd rfl (hne y _ hold')
      · rfl

theorem ArenaExec.effect {task : ArenaTask} {memory : ArenaMemory} {result : Option ArenaMemory}
    (h : ArenaExec task memory result) (hmem : memory.Distinct) : ∀ after, result = some after →
      MemoryEffect task.subtree task.declaredNames memory after := by
  induction h with
  | arena =>
    rintro after ⟨rfl⟩
    exact memoryEffect_create hmem _
  | @allocate isDeclaration pointer handle memory arena hhandle =>
    rintro after ⟨rfl⟩
    refine ⟨fun _ _ => rfl, fun p ha hn => ?_, fun _ _ _ _ _ => rfl, fun _ _ _ _ _ => rfl,
      le_rfl, fun _ _ hx => Or.inl hx, ⟨hmem.bound, hmem.injective⟩⟩
    refine Function.update_of_ne (fun heq => ?_) _ _
    cases isDeclaration with
    | true => exact hn (heq ▸ mem_singleton_self _)
    | false => exact ha (occurs_singleton.mpr (beq_iff_eq.mpr heq.symm))
  | @destroy handle memory arena hhandle =>
    rintro after ⟨rfl⟩
    refine ⟨fun _ _ => rfl, fun _ _ _ => rfl, fun x a hx _ hd => ?_, fun _ _ _ _ _ => rfl,
      le_rfl, fun _ _ hx => Or.inl hx, ⟨hmem.bound, hmem.injective⟩⟩
    refine Function.update_of_ne (fun heq => hd ?_) _ _
    rw [heq] at hx
    exact occurs_singleton.mpr (beq_iff_eq.mpr (hmem.injective _ _ _ hhandle hx))
  | @reset handle memory arena hhandle =>
    rintro after ⟨rfl⟩
    refine ⟨fun _ _ => rfl, fun _ _ _ => rfl, fun _ _ _ _ _ => rfl, fun x a hx _ hr => ?_,
      le_rfl, fun _ _ hx => Or.inl hx, ⟨hmem.bound, hmem.injective⟩⟩
    refine Function.update_of_ne (fun heq => hr ?_) _ _
    rw [heq] at hx
    exact occurs_singleton.mpr (beq_iff_eq.mpr (hmem.injective _ _ _ hhandle hx))
  | dereference _ | whenNone | loopEnd | nil =>
    rintro after ⟨rfl⟩
    exact MemoryEffect.refl hmem _ _
  | stale _ | loopStale _ _ | scopeStale _ _ | consStale _ _ => exact fun _ haft => by cases haft
  | block _ ih =>
    exact fun after haft => (ih hmem after haft).mono (subset_cons_self ..)
      (nil_subset _)
  | consequence _ ih =>
    exact fun after haft => (ih hmem after haft).mono
      (subset_cons_of_subset _ (subset_append_left ..)) (nil_subset _)
  | alternative _ ih =>
    exact fun after haft => (ih hmem after haft).mono
      (subset_cons_of_subset _ (subset_append_right ..)) (nil_subset _)
  | whenCase hbody _ ih =>
    exact fun after haft => (ih hmem after haft).mono
      (subset_cons_of_subset _ (subset_of_has hbody)) (nil_subset _)
  | loopStep _ _ ih ih' =>
    intro after haft
    have hfst := ih hmem _ rfl
    have hrest := ih' hfst.distinct after haft
    exact (hfst.trans hrest).mono
      (append_subset.mpr ⟨subset_cons_self .., List.Subset.refl _⟩) (List.Subset.refl _)
  | scope _ ih =>
    rintro after ⟨rfl⟩
    exact (ih hmem _ rfl).leave hmem fun x hx => occurs_of_mem_declared hx
  | cons _ _ ih ih' =>
    intro after haft
    have hfst := ih hmem _ rfl
    have hrest := ih' hfst.distinct after haft
    refine (hfst.trans hrest).mono (List.Subset.refl _) ?_
    change _ ⊆ ArenaBlock.declaredNames _
    rw [ArenaBlock.declared_cons]
    exact List.Subset.refl _

end Grayscale
