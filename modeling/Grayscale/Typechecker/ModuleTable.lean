import Grayscale.Library.Agreement
import Grayscale.Util.Bytes
import Mathlib.Data.List.Perm.Basic

/-!
# Unqualified names

The resolution of a name without a qualifier in the module table: the module of the scope first,
then the modules that its `using` declarations name.

A declaration entry is a pointer into the declarations of the table; two entries are the same when
their pointers are. The hash tables find the first entry of a name, as lists.
-/

namespace Grayscale.Resolution

/-! ### The table -/

inductive Visibility
  | isPublic | isPrivate
  deriving DecidableEq

structure DeclarationEntry where
  name : Text
  moduleName : Text
  originFile : Option Text
  visibility : Visibility
  deriving DecidableEq

/-- The declarations of one module, as pointers. -/
structure ModuleScope where
  name : Text
  entries : List ℕ
  deriving DecidableEq

/-- An alias of a module, bound in one file or in all of them. -/
structure ModuleAlias where
  file : Option Text
  aliasName : Text
  moduleName : Text
  deriving DecidableEq

structure ModuleTable where
  declarations : ℕ → DeclarationEntry
  modules : List ModuleScope
  aliases : List ModuleAlias

/-- Where a name is looked up from. -/
structure ResolveScope where
  moduleName : Option Text
  file : Option Text
  usingModules : List Text
  deriving DecidableEq

namespace ModuleTable

variable (table : ModuleTable)

/-- `module_table_find`. -/
def find (moduleName : Text) : Option ModuleScope := table.modules.find? (·.name == moduleName)

/-- `module_scope_lookup`. -/
def lookup (scope : ModuleScope) (name : Text) : Option ℕ :=
  scope.entries.find? fun entry => (table.declarations entry).name == name

/-- `module_table_resolve_alias`: a binding of the file wins over one that every file sees. -/
def resolveAlias (file : Option Text) (aliasName : Text) : Text :=
  match table.aliases.find? fun binding => binding.file.isSome && file.isSome &&
      binding.file == file && binding.aliasName == aliasName with
  | some binding => binding.moduleName
  | none =>
    match table.aliases.find? fun binding =>
        binding.file.isNone && binding.aliasName == aliasName with
    | some binding => binding.moduleName
    | none => aliasName

/-- `is_module_declaration_visible`: private declarations are private to their file. -/
def isVisible (scope : ResolveScope) (entry : ℕ) : Bool :=
  if (table.declarations entry).visibility ≠ .isPrivate then true
  else scope.file.isSome && scope.file == (table.declarations entry).originFile

/-- The visible declaration of a name in a module that `using` names. -/
def usedDeclaration (scope : ResolveScope) (name used : Text) : Option ℕ :=
  match table.find (table.resolveAlias scope.file used) with
  | none => none
  | some moduleScope =>
    match table.lookup moduleScope name with
    | none => none
    | some entry => if table.isVisible scope entry then some entry else none

/-- The loop over the used modules: the entry, and the module of one that differs from it. -/
def usingLoop (scope : ResolveScope) (name : Text) (reports : Bool) :
    Option ℕ → List Text → Option ℕ × Option Text
  | found, [] => (found, none)
  | found, used :: rest =>
    match table.usedDeclaration scope name used with
    | none => usingLoop scope name reports found rest
    | some entry =>
      match found with
      | none =>
        if !reports then (some entry, none) else usingLoop scope name reports (some entry) rest
      | some other =>
        if entry ≠ other then (none, some (table.declarations entry).moduleName)
        else usingLoop scope name reports (some other) rest

/-- The entry of the scope's own module. -/
def ownDeclaration (scope : ResolveScope) (name : Text) : Option ℕ :=
  (scope.moduleName.bind table.find).bind fun moduleScope => table.lookup moduleScope name

/-- `module_resolve_unqualified`: the entry, and what `out_ambiguous_with` is set to. -/
def resolveUnqualified (scope : ResolveScope) (name : Text) (reports : Bool) :
    Option ℕ × Option Text :=
  match table.ownDeclaration scope name with
  | some entry => (some entry, none)
  | none => table.usingLoop scope name reports none scope.usingModules

/-! ### What is found -/

/-- The visible declarations of a name in the used modules. -/
def IsUsedDeclaration (scope : ResolveScope) (name : Text) (entry : ℕ) : Prop :=
  ∃ used ∈ scope.usingModules, ∃ moduleScope,
    table.find (table.resolveAlias scope.file used) = some moduleScope ∧
      table.lookup moduleScope name = some entry ∧ table.isVisible scope entry = true

variable {table} {scope : ResolveScope} {name : Text}

theorem usedDeclaration_eq_some {used : Text} {entry : ℕ} :
    table.usedDeclaration scope name used = some entry ↔ ∃ moduleScope,
      table.find (table.resolveAlias scope.file used) = some moduleScope ∧
        table.lookup moduleScope name = some entry ∧ table.isVisible scope entry = true := by
  rw [usedDeclaration]
  cases hmod : table.find (table.resolveAlias scope.file used) with
  | none => simp
  | some moduleScope =>
    simp only [Option.some.injEq, exists_eq_left']
    cases hent : table.lookup moduleScope name with
    | none => simp
    | some other =>
      simp only [Option.ite_none_right_eq_some, Option.some.injEq]
      constructor
      · rintro ⟨hvisible, rfl⟩
        exact ⟨rfl, hvisible⟩
      · rintro ⟨rfl, hvisible⟩
        exact ⟨hvisible, rfl⟩

theorem mem_filterMap_usedDeclaration {entry : ℕ} :
    entry ∈ scope.usingModules.filterMap (table.usedDeclaration scope name) ↔
      table.IsUsedDeclaration scope name entry := by
  rw [List.mem_filterMap, IsUsedDeclaration]
  simp only [usedDeclaration_eq_some]

theorem usingLoop_reports (found : Option ℕ) (l : List Text) :
    table.usingLoop scope name true found l =
      ((agree found (l.filterMap (table.usedDeclaration scope name))).1,
        (agree found (l.filterMap (table.usedDeclaration scope name))).2.map
          fun entry => (table.declarations entry).moduleName) := by
  induction l generalizing found with
  | nil => cases found <;> rfl
  | cons used l ih =>
    rw [usingLoop, List.filterMap_cons]
    cases table.usedDeclaration scope name used with
    | none => exact ih found
    | some entry =>
      cases found with
      | none => exact ih (some entry)
      | some other =>
        simp only [agree]
        by_cases heq : entry = other
        · rw [if_neg (not_not.mpr heq), if_pos heq]
          exact ih (some other)
        · rw [if_pos heq, if_neg heq]
          rfl

theorem usingLoop_first (l : List Text) : table.usingLoop scope name false none l =
    ((l.filterMap (table.usedDeclaration scope name)).head?, none) := by
  induction l with
  | nil => rfl
  | cons used l ih =>
    rw [usingLoop, List.filterMap_cons]
    cases table.usedDeclaration scope name used with
    | none => exact ih
    | some entry => rfl

theorem unqualified_own {entry : ℕ} (h : table.ownDeclaration scope name = some entry)
    (reports : Bool) : table.resolveUnqualified scope name reports = (some entry, none) := by
  rw [resolveUnqualified, h]

theorem unqualified_of_own_eq_none (h : table.ownDeclaration scope name = none)
    (reports : Bool) : table.resolveUnqualified scope name reports =
      table.usingLoop scope name reports none scope.usingModules := by
  rw [resolveUnqualified, h]

theorem usingLoop_spec (scope : ResolveScope) :
    (∀ entry, (table.usingLoop scope name true none scope.usingModules).1 = some entry ↔
      table.IsUsedDeclaration scope name entry ∧
        ∀ other, table.IsUsedDeclaration scope name other → other = entry) ∧
    ((table.usingLoop scope name true none scope.usingModules).2.isSome ↔ ∃ entry other,
      table.IsUsedDeclaration scope name entry ∧ table.IsUsedDeclaration scope name other ∧
        entry ≠ other) := by
  rw [usingLoop_reports]
  refine ⟨fun entry => ?_, ?_⟩
  · rw [agree_eq_some_iff]
    simp only [mem_filterMap_usedDeclaration]
  · rw [Option.isSome_map, agree_conflict_iff]
    simp only [mem_filterMap_usedDeclaration]
    constructor
    · rintro ⟨entry, hent, other, hoth, hne⟩
      exact ⟨entry, other, hent, hoth, hne⟩
    · rintro ⟨entry, other, hent, hoth, hne⟩
      exact ⟨entry, hent, other, hoth, hne⟩

theorem usingLoop_isUsedDeclaration {reports : Bool} {entry : ℕ}
    (h : (table.usingLoop scope name reports none scope.usingModules).1 = some entry) :
    table.IsUsedDeclaration scope name entry := by
  cases reports with
  | true => exact (((usingLoop_spec scope).1 entry).mp h).1
  | false =>
    rw [usingLoop_first] at h
    exact mem_filterMap_usedDeclaration.mp (List.mem_of_mem_head? h)

theorem usingLoop_perm {usingModules : List Text} (h : usingModules.Perm scope.usingModules) :
    (table.usingLoop { scope with usingModules } name true none usingModules).1 =
        (table.usingLoop scope name true none scope.usingModules).1 ∧
      (table.usingLoop { scope with usingModules } name true none usingModules).2.isSome =
        (table.usingLoop scope name true none scope.usingModules).2.isSome := by
  -- what a module gives does not depend on the list
  have hused : table.usedDeclaration { scope with usingModules } name =
      table.usedDeclaration scope name := rfl
  rw [usingLoop_reports, usingLoop_reports, Option.isSome_map, Option.isSome_map, hused]
  exact agree_congr fun entry => (h.filterMap _).mem_iff

/-- The entry of the scope's own module is found first. Otherwise the visible declaration of the
used modules is found when there is one only, an ambiguity is reported when there are two, and
nothing is found when there is none. The order of the used modules does not matter, and a private
declaration of another file is found in the own module only. -/
theorem resolveUnqualified_spec (table : ModuleTable) (scope : ResolveScope) (name : Text) :
    (∀ entry reports, table.ownDeclaration scope name = some entry →
      table.resolveUnqualified scope name reports = (some entry, none)) ∧
    (table.ownDeclaration scope name = none →
      (∀ entry, (table.resolveUnqualified scope name true).1 = some entry ↔
        table.IsUsedDeclaration scope name entry ∧
          ∀ other, table.IsUsedDeclaration scope name other → other = entry) ∧
      ((table.resolveUnqualified scope name true).2.isSome ↔ ∃ entry other,
        table.IsUsedDeclaration scope name entry ∧ table.IsUsedDeclaration scope name other ∧
          entry ≠ other)) ∧ (∀ usingModules, usingModules.Perm scope.usingModules →
      (table.resolveUnqualified { scope with usingModules } name true).1 =
          (table.resolveUnqualified scope name true).1 ∧
        (table.resolveUnqualified { scope with usingModules } name true).2.isSome =
          (table.resolveUnqualified scope name true).2.isSome) ∧
    ∀ entry reports, (table.resolveUnqualified scope name reports).1 = some entry →
      table.isVisible scope entry = true ∨ table.ownDeclaration scope name = some entry := by
  refine ⟨fun entry reports h => unqualified_own h reports, fun h => ?_, ?_, ?_⟩
  · rw [unqualified_of_own_eq_none h]
    exact usingLoop_spec scope
  · intro usingModules hperm
    cases hown : table.ownDeclaration scope name with
    | some entry =>
      have hown' : table.ownDeclaration { scope with usingModules } name = some entry := hown
      rw [unqualified_own hown, unqualified_own hown']
      exact ⟨rfl, rfl⟩
    | none =>
      have hown' : table.ownDeclaration { scope with usingModules } name = none := hown
      rw [unqualified_of_own_eq_none hown, unqualified_of_own_eq_none hown']
      exact usingLoop_perm hperm
  · intro entry reports h
    cases hown : table.ownDeclaration scope name with
    | some own =>
      rw [unqualified_own hown] at h
      exact .inr h
    | none =>
      rw [unqualified_of_own_eq_none hown] at h
      obtain ⟨used, -, moduleScope, -, -, hvisible⟩ := usingLoop_isUsedDeclaration h
      exact .inl hvisible

/-- A module of two files: the private declaration of one is found from the other. -/
theorem exists_found_not_isVisible : ¬ ∀ (table : ModuleTable) (scope : ResolveScope) (name : Text)
    (entry : ℕ), (table.resolveUnqualified scope name true).1 = some entry →
      table.isVisible scope entry = true := by
  intro h
  have hvisible := h
    ⟨fun _ => ⟨bytes "secret", bytes "pkg", some (bytes "pkg/a.gray"), .isPrivate⟩,
      [⟨bytes "pkg", [0]⟩], []⟩
    ⟨some (bytes "pkg"), some (bytes "pkg/b.gray"), []⟩ (bytes "secret") 0 (by decide)
  exact absurd hvisible (by decide)

end ModuleTable

end Grayscale.Resolution
