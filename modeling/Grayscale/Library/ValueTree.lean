import Mathlib.Data.List.Basic

/-!
# Values in trees

Values are trees of records and arrays; a pointer names the root of another tree. A store maps roots
to values, and an address is a root and a path of selectors. A write at an address is not seen by
the reads of kinds at other addresses, unless they are inside of what is written.
-/

namespace Grayscale

open Function

variable {κ α ρ : Type} [DecidableEq κ]

/-- A value: a leaf, a record, an array, or a pointer to a root. -/
inductive ValueTree (κ α ρ : Type)
  | leaf (value : α)
  | record (entries : List (κ × ValueTree κ α ρ))
  | array (elements : List (ValueTree κ α ρ))
  | pointer (target : ρ)

/-- A step from a value to a part of it. -/
inductive Selector (κ : Type)
  | entry (key : κ)
  | element (index : ℕ)
deriving DecidableEq

/-- What a value is, without its parts. -/
inductive ValueKind (ρ : Type)
  | leaf
  | record
  | array
  | pointer (target : ρ)
deriving DecidableEq

def ValueTree.kind : ValueTree κ α ρ → ValueKind ρ
  | .leaf _ => .leaf
  | .record _ => .record
  | .array _ => .array
  | .pointer target => .pointer target

/-! ### One step -/

@[grind =] def lookupEntry {β : Type} (key : κ) : List (κ × β) → Option β
  | [] => none
  | (key', value) :: l => if key' = key then some value else lookupEntry key l

@[grind =] def replaceEntry {β : Type} (key : κ) (value : β) : List (κ × β) → List (κ × β)
  | [] => []
  | (key', value') :: l =>
    if key' = key then (key', value) :: l else (key', value') :: replaceEntry key value l

section Entries

variable {β : Type} {key key' : κ} {value value' : β} {l : List (κ × β)}

theorem lookupEntry_replaceEntry (h : (lookupEntry key l).isSome = true) :
    lookupEntry key (replaceEntry key value l) = some value := by
  induction l with
  | nil => cases h
  | cons first l ih =>
    rw [lookupEntry] at h
    rw [replaceEntry]
    split_ifs at h ⊢ with hkey
    · rw [lookupEntry, if_pos hkey]
    · rw [lookupEntry, if_neg hkey, ih h]

theorem lookupEntry_replaceEntry_of_ne (h : key ≠ key') :
    lookupEntry key' (replaceEntry key value l) = lookupEntry key' l := by
  induction l with
  | nil => rfl
  | cons first l ih =>
    rw [replaceEntry]
    split_ifs with hkey
    · rw [lookupEntry, lookupEntry, if_neg (fun heq => h (hkey.symm.trans heq)),
        if_neg (fun heq => h (hkey.symm.trans heq))]
    · rw [lookupEntry, lookupEntry, ih]

theorem replaceEntry_replaceEntry :
    replaceEntry key value (replaceEntry key value' l) = replaceEntry key value l := by
  induction l with
  | nil => rfl
  | cons first l ih =>
    rw [replaceEntry, replaceEntry]
    split_ifs with hkey
    · rw [replaceEntry, if_pos hkey]
    · rw [replaceEntry, if_neg hkey, ih]

theorem replaceEntry_self (h : lookupEntry key l = some value) : replaceEntry key value l = l := by
  induction l with
  | nil => rfl
  | cons first l ih =>
    rw [lookupEntry] at h
    rw [replaceEntry]
    split_ifs at h ⊢ with hkey
    · rw [← Option.some.inj h]
    · rw [ih h]

end Entries

@[grind =] def ValueTree.child : Selector κ → ValueTree κ α ρ → Option (ValueTree κ α ρ)
  | .entry key, .record entries => lookupEntry key entries
  | .element index, .array elements => elements[index]?
  | _, _ => none

/-- A value with another one for a part that is there. -/
def ValueTree.setChild : ValueTree κ α ρ → Selector κ → ValueTree κ α ρ → ValueTree κ α ρ
  | .record entries, .entry key, part => .record (replaceEntry key part entries)
  | .array elements, .element index, part => .array (elements.set index part)
  | value, _, _ => value

section Child

variable {s s' : Selector κ} {value part part' : ValueTree κ α ρ}

theorem ValueTree.kind_setChild : (value.setChild s part).kind = value.kind := by
  cases s <;> cases value <;> rfl

theorem ValueTree.child_setChild (h : (value.child s).isSome = true) :
    (value.setChild s part).child s = some part := by
  cases s with
  | entry key =>
    cases value with
    | record entries => exact lookupEntry_replaceEntry h
    | leaf | array | pointer => cases h
  | element index =>
    cases value with
    | array elements =>
      have hlt : index < elements.length := by
        rw [child, isSome_getElem?] at h
        exact h
      exact List.getElem?_set_self hlt
    | leaf | record | pointer => cases h

theorem ValueTree.child_setChild_of_ne (h : s ≠ s') :
    (value.setChild s part).child s' = value.child s' := by
  cases s with
  | entry key =>
    cases value with
    | record entries =>
      cases s' with
      | entry key' => exact lookupEntry_replaceEntry_of_ne fun heq => h (congrArg _ heq)
      | element index => rfl
    | leaf | array | pointer => rfl
  | element index =>
    cases value with
    | array elements =>
      cases s' with
      | entry key => rfl
      | element index' => exact List.getElem?_set_ne fun heq => h (congrArg _ heq)
    | leaf | record | pointer => rfl

theorem ValueTree.setChild_setChild :
    (value.setChild s part').setChild s part = value.setChild s part := by
  cases s with
  | entry key =>
    cases value with
    | record entries => exact congrArg ValueTree.record replaceEntry_replaceEntry
    | leaf | array | pointer => rfl
  | element index =>
    cases value with
    | array elements => exact congrArg ValueTree.array (List.set_set ..)
    | leaf | record | pointer => rfl

theorem ValueTree.setChild_self (h : value.child s = some part) : value.setChild s part = value := by
  cases s with
  | entry key =>
    cases value with
    | record entries => exact congrArg ValueTree.record (replaceEntry_self h)
    | leaf | array | pointer => rfl
  | element index =>
    cases value with
    | array elements =>
      obtain ⟨hlt, heq⟩ := List.getElem?_eq_some_iff.mp h
      exact congrArg ValueTree.array (by rw [← heq, List.set_getElem_self])
    | leaf | record | pointer => rfl

end Child

/-! ### Paths -/

@[grind =] def ValueTree.readPath : List (Selector κ) → ValueTree κ α ρ → Option (ValueTree κ α ρ)
  | [], value => some value
  | s :: path, value => (value.child s).bind (readPath path)

@[grind =] def ValueTree.writePath (part : ValueTree κ α ρ) : List (Selector κ) → ValueTree κ α ρ →
    ValueTree κ α ρ
  | [], _ => part
  | s :: path, value =>
    match value.child s with
    | none => value
    | some inner => value.setChild s (writePath part path inner)

section Path

variable {part part' : ValueTree κ α ρ} {path : List (Selector κ)} {value : ValueTree κ α ρ}

theorem ValueTree.readPath_writePath
    (h : (readPath path value).isSome = true) :
    readPath path (writePath part path value) = some part := by
  induction path generalizing value with
  | nil => rfl
  | cons s path ih =>
    rw [readPath] at h
    rw [readPath, writePath]
    cases hchild : value.child s with
    | none =>
      rw [hchild] at h
      cases h
    | some inner =>
      rw [hchild] at h
      dsimp only
      rw [child_setChild (hchild ▸ rfl), Option.bind_some, ih h]

theorem ValueTree.writePath_writePath :
    writePath part path (writePath part' path value) = writePath part path value := by
  induction path generalizing value with
  | nil => rfl
  | cons s path ih =>
    cases hchild : value.child s with
    | none =>
      have hsame : ∀ part, writePath part (s :: path) value = value := fun part => by
        rw [writePath, hchild]
      rw [hsame, hsame]
    | some inner =>
      have hstep : ∀ part, writePath part (s :: path) value =
          value.setChild s (writePath part path inner) := fun part => by
        rw [writePath, hchild]
      rw [hstep, hstep, writePath, child_setChild (hchild ▸ rfl)]
      dsimp only
      rw [setChild_setChild, ih]

theorem ValueTree.writePath_self
    (h : readPath path value = some part) : writePath part path value = value := by
  induction path generalizing value with
  | nil => exact (Option.some.inj h).symm
  | cons s path ih =>
    obtain ⟨inner, hchild, hrest⟩ := Option.bind_eq_some_iff.mp h
    rw [writePath, hchild]
    dsimp only
    rw [ih hrest, setChild_self hchild]

theorem ValueTree.kind_readPath_writePath {path path' : List (Selector κ)} {value : ValueTree κ α ρ}
    (h : ¬ path <+: path') :
    (readPath path' (writePath part path value)).map kind = (readPath path' value).map kind := by
  induction path generalizing path' value with
  | nil => exact absurd (List.nil_prefix) h
  | cons s path ih =>
    rw [writePath]
    cases hchild : value.child s with
    | none => rfl
    | some inner =>
      dsimp only
      cases path' with
      | nil => exact congrArg some kind_setChild
      | cons s' path' =>
        rw [readPath, readPath]
        by_cases hs : s = s'
        · subst hs
          rw [child_setChild (hchild ▸ rfl), hchild, Option.bind_some, Option.bind_some]
          exact ih fun hpre => h (List.cons_prefix_cons.mpr ⟨rfl, hpre⟩)
        · rw [child_setChild_of_ne hs]

end Path

/-! ### Stores -/

variable [DecidableEq ρ]

abbrev ValueStore (κ α ρ : Type) := ρ → Option (ValueTree κ α ρ)

/-- A root and a path from it. -/
structure Address (κ ρ : Type) where
  root : ρ
  path : List (Selector κ)
deriving DecidableEq

def Address.select (a : Address κ ρ) (s : Selector κ) : Address κ ρ := ⟨a.root, a.path ++ [s]⟩

/-- An address is in what stands at another one. -/
def Address.Inside (a b : Address κ ρ) : Prop := b.root = a.root ∧ b.path <+: a.path

@[grind =] def readAt (store : ValueStore κ α ρ) (a : Address κ ρ) : Option (ValueTree κ α ρ) :=
  (store a.root).bind (ValueTree.readPath a.path)

@[grind =] def writeAt (store : ValueStore κ α ρ) (a : Address κ ρ) (part : ValueTree κ α ρ) :
    ValueStore κ α ρ := update store a.root ((store a.root).map (ValueTree.writePath part a.path))

def kindAt (store : ValueStore κ α ρ) (a : Address κ ρ) : Option (ValueKind ρ) :=
  (readAt store a).map ValueTree.kind

section Store

variable {store : ValueStore κ α ρ} {a b : Address κ ρ} {part part' : ValueTree κ α ρ} {root : ρ}

theorem writeAt_of_ne (h : root ≠ a.root) : writeAt store a part root = store root :=
  update_of_ne h _ _

theorem readAt_writeAt (h : (readAt store a).isSome = true) :
    readAt (writeAt store a part) a = some part := by
  unfold readAt at h ⊢
  rw [writeAt, update_self]
  cases hroot : store a.root with
  | none =>
    rw [hroot] at h
    cases h
  | some value =>
    rw [hroot] at h
    exact ValueTree.readPath_writePath h

theorem writeAt_writeAt : writeAt (writeAt store a part') a part = writeAt store a part := by
  unfold writeAt
  rw [update_self, update_idem, Option.map_map]
  congr 1
  refine congrArg (Option.map · _) (funext fun value => ?_)
  exact ValueTree.writePath_writePath

theorem writeAt_self (h : readAt store a = some part) : writeAt store a part = store := by
  obtain ⟨value, hroot, hpath⟩ := Option.bind_eq_some_iff.mp h
  unfold writeAt
  rw [hroot, Option.map_some, ValueTree.writePath_self hpath, ← hroot, update_eq_self]

theorem kindAt_writeAt (h : ¬ b.Inside a) : kindAt (writeAt store a part) b = kindAt store b := by
  unfold kindAt readAt
  by_cases hroot : b.root = a.root
  · rw [writeAt, hroot, update_self]
    cases store a.root with
    | none => rfl
    | some value => exact ValueTree.kind_readPath_writePath fun hpre => h ⟨hroot.symm, hpre⟩
  · rw [writeAt_of_ne hroot]

theorem writeAt_update (h : root ≠ a.root) (value : Option (ValueTree κ α ρ)) :
    writeAt (update store root value) a part = update (writeAt store a part) root value := by
  unfold writeAt
  rw [update_of_ne h.symm, update_comm h.symm]

theorem readAt_update (h : root ≠ a.root) (value : Option (ValueTree κ α ρ)) :
    readAt (update store root value) a = readAt store a := by
  unfold readAt
  rw [update_of_ne h.symm]

end Store

end Grayscale
