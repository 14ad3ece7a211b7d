import Grayscale.Typechecker.TypeText

/-!
# Type aliases

`resolve_type_alias` follows chains of whole names for at most 32 steps, but goes into every target
that is a container, and into every slot of a container.
-/

namespace Grayscale

open List
open Option (bind_eq_some_iff bind_some isSome_iff_exists map_eq_some_iff some.inj)

/-! ### Aliases -/

structure AliasDeclaration where
  name : TypeName
  target : WrittenType

/-- The registered aliases; a second one of a name is not registered (E4020). -/
structure Aliases where
  declarations : List AliasDeclaration
  nodup : (declarations.map fun d => d.name.text).Nodup

def Aliases.find (aliases : Aliases) (name : Text) : Option AliasDeclaration :=
  aliases.declarations.find? fun d => d.name.text == name

/-- The spelling that an alias stands for. -/
def Aliases.target (aliases : Aliases) (name : Text) : Option Text :=
  (aliases.find name).map fun d => spell d.target

/-! ### Resolution -/

/-- Whether a spelling is a pointer, an array, a map or a function. -/
def isContainer (name : Text) : Bool :=
  (bytes "^").isPrefixOf name || (bytes "[").isPrefixOf name || (bytes "map[").isPrefixOf name ||
    (bytes "func(").isPrefixOf name

/-- The branch of `resolve_type_alias_impl` that a spelling takes, with its slots. A container that
cannot be taken apart is left whole. -/
inductive TypeShape
  | pointer (pointee : Text)
  | array (element suffix : Text)
  | map (key value : Text)
  | function (parameters : Text) (result : Option Text)
  | whole
  | name

def typeShape (name : Text) : TypeShape :=
  if (bytes "^").isPrefixOf name then .pointer (name.drop 1)
  else if (bytes "[").isPrefixOf name then
    match arrayParts name with
    | some (element, suffix) => .array element suffix
    | none => .whole
  else if (bytes "map[").isPrefixOf name then
    match mapParts name with
    | some (key, value) => .map key value
    | none => .whole
  else if (bytes "func(").isPrefixOf name then
    match functionParts name with
    | some (parameters, result) => .function parameters result
    | none => .whole
  else .name

/-- The loop over a chain of whole names: where it ends, and whether that is a container. -/
def followAliases (aliases : Aliases) : ℕ → Text → Text × Bool
  | 0, name => (name, false)
  | depth + 1, name =>
    match aliases.target name with
    | none => (name, false)
    | some target => if isContainer target then (target, true) else followAliases aliases depth target

/-- What `alias_resolve_type_list` appends for a segment. -/
def resolvedPart (resolvedList segment : Text) (resolved : Option Text) : Text :=
  (if resolvedList.isEmpty then [] else [byte ',']) ++
    (if segment.head? = some (byte '&') then [byte '&'] else []) ++
      resolved.getD (segmentType segment)

/-- `alias_resolve_type_list`: the rebuilt list and whether it has changed; the inner `none` when
the buffer of 256 bytes is too small, and the outer one without fuel. -/
def aliasResolveTypeList (resolve : Text → Option (Option Text)) :
    List Text → Text → Bool → Option (Option (Text × Bool))
  | [], resolvedList, changed => some (some (resolvedList, changed))
  | segment :: l, resolvedList, changed =>
    (resolve (segmentType segment)).bind fun resolved =>
      if resolvedList.length + (resolvedPart resolvedList segment resolved).length ≥ 256 then some none
      else aliasResolveTypeList resolve l (resolvedList ++ resolvedPart resolvedList segment resolved)
        (changed || resolved.isSome)

/-- The resolution of the return type of a function, if it has one. -/
def resolveResult (resolve : Text → Option (Option Text)) : Option Text → Option (Option Text)
  | none => some none
  | some text => resolve text

/-- One call of `resolve_type_alias_impl`. The inner `none` stands for the spelling itself. -/
def resolveStep (aliases : Aliases) (resolve : Text → Option (Option Text)) (name : Text) :
    Option (Option Text) :=
  match typeShape name with
  | .pointer pointee => (resolve pointee).map fun resolved => resolved.map fun t => byte '^' :: t
  | .array element suffix => (resolve element).map fun resolved =>
      resolved.map fun t => byte '[' :: (t ++ suffix ++ [byte ']'])
  | .map key value =>
    (resolve key).bind fun keyPart => (resolve value).map fun valuePart =>
      if keyPart.isSome || valuePart.isSome then
        some (bytes "map[" ++ keyPart.getD key ++ byte ':' :: (valuePart.getD value ++ [byte ']']))
      else none
  | .function parameters result =>
    (aliasResolveTypeList resolve (typeListSegments parameters.length parameters) [] false).bind
      fun list => (resolveResult resolve result).map fun resolvedResult =>
        list.bind fun rebuilt =>
          if rebuilt.2 || resolvedResult.isSome then
            some (bytes "func(" ++ rebuilt.1 ++ byte ')' ::
              match result with
              | none => []
              | some text => bytes "->" ++ resolvedResult.getD text)
          else none
  | .whole => some none
  | .name =>
    match aliases.target name with
    | none => some none
    | some _ =>
      if (followAliases aliases 32 name).2 then
        (resolve (followAliases aliases 32 name).1).map fun resolved =>
          some (resolved.getD (followAliases aliases 32 name).1)
      else some (some (followAliases aliases 32 name).1)

/-- `resolve_type_alias_impl`, for `resolve_type_alias`: `distinct` aliases are erased, too. -/
def resolveTypeAliasImpl (aliases : Aliases) : ℕ → Text → Option (Option Text)
  | 0, _ => none
  | fuel + 1, name => resolveStep aliases (resolveTypeAliasImpl aliases fuel) name

/-- Resolution of a spelling ends. -/
def Terminates (aliases : Aliases) (name : Text) : Prop :=
  ∃ fuel, (resolveTypeAliasImpl aliases fuel name).isSome

/-! ### More fuel -/

/-- A resolution that another one agrees with, where it ends. -/
def Extends (resolve resolve' : Text → Option (Option Text)) : Prop :=
  ∀ name resolved, resolve name = some resolved → resolve' name = some resolved

section Extends

variable {resolve resolve' : Text → Option (Option Text)} (h : Extends resolve resolve')

include h

theorem Extends.aliasResolveTypeList {segments : List Text} {resolvedList : Text} {changed : Bool}
    {list : Option (Text × Bool)}
    (hlist : aliasResolveTypeList resolve segments resolvedList changed = some list) :
    aliasResolveTypeList resolve' segments resolvedList changed = some list := by
  induction segments generalizing resolvedList changed with
  | nil => exact hlist
  | cons segment l ih =>
    obtain ⟨resolved, hres, hrest⟩ := bind_eq_some_iff.mp hlist
    rw [Grayscale.aliasResolveTypeList, h _ _ hres, bind_some]
    split_ifs at hrest ⊢ with hfull
    · exact hrest
    · exact ih hrest

theorem Extends.resolveStep {aliases : Aliases} :
    Extends (resolveStep aliases resolve) (resolveStep aliases resolve') := by
  intro name resolved hres
  unfold Grayscale.resolveStep at hres ⊢
  cases hsh : typeShape name with
  | pointer pointee =>
    rw [hsh] at hres
    obtain ⟨r, hr, rfl⟩ := map_eq_some_iff.mp hres
    exact map_eq_some_iff.mpr ⟨r, h _ _ hr, rfl⟩
  | array element suffix =>
    rw [hsh] at hres
    obtain ⟨r, hr, rfl⟩ := map_eq_some_iff.mp hres
    exact map_eq_some_iff.mpr ⟨r, h _ _ hr, rfl⟩
  | map key value =>
    rw [hsh] at hres
    obtain ⟨k, hk, hrest⟩ := bind_eq_some_iff.mp hres
    obtain ⟨v, hv, rfl⟩ := map_eq_some_iff.mp hrest
    exact bind_eq_some_iff.mpr ⟨k, h _ _ hk, map_eq_some_iff.mpr ⟨v, h _ _ hv, rfl⟩⟩
  | function parameters result =>
    rw [hsh] at hres
    obtain ⟨list, hlist, hrest⟩ := bind_eq_some_iff.mp hres
    obtain ⟨r, hr, rfl⟩ := map_eq_some_iff.mp hrest
    refine bind_eq_some_iff.mpr ⟨list, h.aliasResolveTypeList hlist,
      map_eq_some_iff.mpr ⟨r, ?_, rfl⟩⟩
    cases result with
    | none => exact hr
    | some text => exact h _ _ hr
  | whole =>
    rw [hsh] at hres
    exact hres
  | name =>
    rw [hsh] at hres
    dsimp only at hres ⊢
    cases htgt : aliases.target name with
    | none =>
      rw [htgt] at hres
      exact hres
    | some target =>
      rw [htgt] at hres
      dsimp only at hres ⊢
      split_ifs at hres ⊢ with hcont
      · obtain ⟨r, hr, rfl⟩ := map_eq_some_iff.mp hres
        exact map_eq_some_iff.mpr ⟨r, h _ _ hr, rfl⟩
      · exact hres

end Extends

theorem extends_resolveImpl (aliases : Aliases) {fuel fuel' : ℕ} (h : fuel ≤ fuel') :
    Extends (resolveTypeAliasImpl aliases fuel) (resolveTypeAliasImpl aliases fuel') := by
  induction fuel generalizing fuel' with
  | zero => exact fun name resolved hres => by cases hres
  | succ fuel ih =>
    obtain ⟨n, rfl⟩ : ∃ n, fuel' = n + 1 := ⟨fuel' - 1, by omega⟩
    exact (ih (Nat.le_of_succ_le_succ h)).resolveStep

variable {aliases : Aliases}

theorem resolveImpl_unique {fuel fuel' : ℕ} {name : Text}
    {resolved resolved' : Option Text} (h : resolveTypeAliasImpl aliases fuel name = some resolved)
    (h' : resolveTypeAliasImpl aliases fuel' name = some resolved') : resolved = resolved' := by
  have hmax := extends_resolveImpl aliases (Nat.le_max_left fuel fuel') _ _ h
  have hmax' := extends_resolveImpl aliases (Nat.le_max_right fuel fuel') _ _ h'
  exact some.inj (hmax.symm.trans hmax')

/-! ### The spellings that a resolution goes into -/

/-- The types of a list that its resolution reaches before the buffer is full. -/
inductive EntersSegment (aliases : Aliases) : Text → List Text → Text → Prop
  | head {resolvedList segment : Text} {l : List Text} :
    EntersSegment aliases resolvedList (segment :: l) (segmentType segment)
  | tail {resolvedList segment name : Text} {l : List Text} {fuel : ℕ} {resolved : Option Text}
    (hresolved : resolveTypeAliasImpl aliases fuel (segmentType segment) = some resolved)
    (hroom : resolvedList.length + (resolvedPart resolvedList segment resolved).length < 256)
    (h : EntersSegment aliases (resolvedList ++ resolvedPart resolvedList segment resolved) l name) :
    EntersSegment aliases resolvedList (segment :: l) name

/-- The spellings that the resolution of one calls itself for: the slots of a container, and the
container that a chain of names ends at. -/
inductive Enters (aliases : Aliases) (name : Text) : Text → Prop
  | pointee {pointee : Text} (h : typeShape name = .pointer pointee) : Enters aliases name pointee
  | element {element suffix : Text} (h : typeShape name = .array element suffix) :
    Enters aliases name element
  | key {key value : Text} (h : typeShape name = .map key value) : Enters aliases name key
  | value {key value : Text} (h : typeShape name = .map key value) : Enters aliases name value
  | parameter {parameters parameter : Text} {result : Option Text}
    (h : typeShape name = .function parameters result)
    (hparameter : EntersSegment aliases [] (typeListSegments parameters.length parameters) parameter) :
    Enters aliases name parameter
  | result {parameters result : Text} (h : typeShape name = .function parameters (some result)) :
    Enters aliases name result
  | target (h : typeShape name = .name) (htarget : (followAliases aliases 32 name).2 = true) :
    Enters aliases name (followAliases aliases 32 name).1

variable {name : Text}

theorem follow_of_none (h : aliases.target name = none)
    (depth : ℕ) : followAliases aliases depth name = (name, false) := by
  cases depth with
  | zero => rfl
  | succ depth => rw [followAliases, h]

theorem EntersSegment.isSome {resolvedList name : Text} {segments : List Text}
    (h : EntersSegment aliases resolvedList segments name) {fuel : ℕ} {changed : Bool}
    (hlist : (aliasResolveTypeList (resolveTypeAliasImpl aliases fuel) segments resolvedList
      changed).isSome) : (resolveTypeAliasImpl aliases fuel name).isSome := by
  induction h generalizing changed with
  | head =>
    obtain ⟨list, hlist⟩ := isSome_iff_exists.mp hlist
    obtain ⟨resolved, hres, -⟩ := bind_eq_some_iff.mp hlist
    rw [hres]
    rfl
  | @tail resolvedList segment name l fuel' resolved' hres' hroom _ ih =>
    obtain ⟨list, hlist⟩ := isSome_iff_exists.mp hlist
    obtain ⟨resolved, hres, hrest⟩ := bind_eq_some_iff.mp hlist
    obtain rfl := resolveImpl_unique hres hres'
    rw [if_neg (by omega)] at hrest
    exact ih (isSome_iff_exists.mpr ⟨list, hrest⟩)

theorem Enters.isSome {name sub : Text} (h : Enters aliases name sub) {fuel : ℕ}
    (hname : (resolveTypeAliasImpl aliases (fuel + 1) name).isSome) :
    (resolveTypeAliasImpl aliases fuel sub).isSome := by
  obtain ⟨resolved, hres⟩ := isSome_iff_exists.mp hname
  rw [resolveTypeAliasImpl, resolveStep] at hres
  cases h with
  | pointee h | element h =>
    rw [h] at hres
    obtain ⟨r, hr, -⟩ := map_eq_some_iff.mp hres
    rw [hr]
    rfl
  | key h =>
    rw [h] at hres
    obtain ⟨r, hr, -⟩ := bind_eq_some_iff.mp hres
    rw [hr]
    rfl
  | value h =>
    rw [h] at hres
    obtain ⟨k, -, hrest⟩ := bind_eq_some_iff.mp hres
    obtain ⟨r, hr, -⟩ := map_eq_some_iff.mp hrest
    rw [hr]
    rfl
  | parameter h hpar =>
    rw [h] at hres
    obtain ⟨list, hlist, -⟩ := bind_eq_some_iff.mp hres
    exact hpar.isSome (isSome_iff_exists.mpr ⟨list, hlist⟩)
  | result h =>
    rw [h] at hres
    obtain ⟨list, -, hrest⟩ := bind_eq_some_iff.mp hres
    obtain ⟨r, hr, -⟩ := map_eq_some_iff.mp hrest
    change resolveTypeAliasImpl aliases fuel sub = some r at hr
    rw [hr]
    rfl
  | target h htgt =>
    rw [h] at hres
    dsimp only at hres
    cases hfind : aliases.target name with
    | none =>
      rw [follow_of_none hfind] at htgt
      cases htgt
    | some target =>
      rw [hfind] at hres
      dsimp only at hres
      rw [if_pos htgt] at hres
      obtain ⟨r, hr, -⟩ := map_eq_some_iff.mp hres
      rw [hr]
      rfl

theorem Terminates.exists_common {name name' : Text}
    (h : Terminates aliases name) (h' : Terminates aliases name') :
    ∃ fuel resolved resolved', resolveTypeAliasImpl aliases fuel name = some resolved ∧
      resolveTypeAliasImpl aliases fuel name' = some resolved' := by
  obtain ⟨fuel, hfuel⟩ := h
  obtain ⟨fuel', hfuel'⟩ := h'
  obtain ⟨resolved, hres⟩ := isSome_iff_exists.mp hfuel
  obtain ⟨resolved', hres'⟩ := isSome_iff_exists.mp hfuel'
  exact ⟨max fuel fuel', resolved, resolved',
    extends_resolveImpl aliases (Nat.le_max_left ..) _ _ hres,
    extends_resolveImpl aliases (Nat.le_max_right ..) _ _ hres'⟩

theorem resolveList_isSome {segments : List Text} {resolvedList : Text}
    (h : ∀ name, EntersSegment aliases resolvedList segments name → Terminates aliases name)
    (changed : Bool) :
    ∃ fuel list, aliasResolveTypeList (resolveTypeAliasImpl aliases fuel) segments resolvedList
      changed = some list := by
  induction segments generalizing resolvedList changed with
  | nil => exact ⟨0, _, rfl⟩
  | cons segment l ih =>
    obtain ⟨fuel, hfuel⟩ := h _ .head
    obtain ⟨resolved, hres⟩ := isSome_iff_exists.mp hfuel
    by_cases hfull : resolvedList.length + (resolvedPart resolvedList segment resolved).length ≥ 256
    · refine ⟨fuel, none, ?_⟩
      rw [aliasResolveTypeList, hres, bind_some, if_pos hfull]
    · obtain ⟨fuel', list, hlist⟩ := ih (fun name hname => h name
        (.tail hres (Nat.lt_of_not_le hfull) hname)) (changed || resolved.isSome)
      refine ⟨max fuel fuel', list, ?_⟩
      rw [aliasResolveTypeList,
        extends_resolveImpl aliases (Nat.le_max_left ..) _ _ hres, bind_some, if_neg hfull]
      exact (extends_resolveImpl aliases (Nat.le_max_right ..)).aliasResolveTypeList hlist

theorem terminates_of_enters
    (h : ∀ sub, Enters aliases name sub → Terminates aliases sub) : Terminates aliases name := by
  have hstep : ∀ {fuel resolved}, resolveStep aliases (resolveTypeAliasImpl aliases fuel) name =
      some resolved → Terminates aliases name :=
    fun {fuel resolved} hres => ⟨fuel + 1, by rw [resolveTypeAliasImpl, hres]; rfl⟩
  cases hsh : typeShape name with
  | pointer pointee =>
    obtain ⟨fuel, hfuel⟩ := h _ (.pointee hsh)
    obtain ⟨resolved, hres⟩ := isSome_iff_exists.mp hfuel
    exact hstep (by rw [resolveStep, hsh]; exact map_eq_some_iff.mpr ⟨_, hres, rfl⟩)
  | array element suffix =>
    obtain ⟨fuel, hfuel⟩ := h _ (.element hsh)
    obtain ⟨resolved, hres⟩ := isSome_iff_exists.mp hfuel
    exact hstep (by rw [resolveStep, hsh]; exact map_eq_some_iff.mpr ⟨_, hres, rfl⟩)
  | map key value =>
    obtain ⟨fuel, k, v, hk, hv⟩ := (h _ (.key hsh)).exists_common (h _ (.value hsh))
    exact hstep (by
      rw [resolveStep, hsh]
      exact bind_eq_some_iff.mpr ⟨k, hk, map_eq_some_iff.mpr ⟨v, hv, rfl⟩⟩)
  | function parameters result =>
    obtain ⟨fuel, list, hlist⟩ := resolveList_isSome
      (fun sub hsub => h sub (.parameter hsh hsub)) false
    have hresult : ∃ fuel resolved, resolveResult (resolveTypeAliasImpl aliases fuel) result =
        some resolved := by
      cases result with
      | none => exact ⟨0, _, rfl⟩
      | some text =>
        obtain ⟨fuel, hfuel⟩ := h _ (.result hsh)
        exact ⟨fuel, isSome_iff_exists.mp hfuel⟩
    obtain ⟨fuel', resolved, hres⟩ := hresult
    have hres' : resolveResult (resolveTypeAliasImpl aliases (max fuel fuel')) result =
        some resolved := by
      cases result with
      | none => exact hres
      | some text =>
        exact extends_resolveImpl aliases (Nat.le_max_right ..) _ _ hres
    exact hstep (by
      rw [resolveStep, hsh]
      exact bind_eq_some_iff.mpr ⟨list,
        (extends_resolveImpl aliases (Nat.le_max_left fuel fuel')).aliasResolveTypeList hlist,
        map_eq_some_iff.mpr ⟨resolved, hres', rfl⟩⟩)
  | whole => exact ⟨1, by rw [resolveTypeAliasImpl, resolveStep, hsh]; rfl⟩
  | name =>
    cases hfind : aliases.target name with
    | none => exact ⟨1, by rw [resolveTypeAliasImpl, resolveStep, hsh]; dsimp only; rw [hfind]; rfl⟩
    | some target =>
      by_cases htgt : (followAliases aliases 32 name).2 = true
      · obtain ⟨fuel, hfuel⟩ := h _ (.target hsh htgt)
        obtain ⟨resolved, hres⟩ := isSome_iff_exists.mp hfuel
        refine ⟨fuel + 1, ?_⟩
        rw [resolveTypeAliasImpl, resolveStep, hsh]
        dsimp only
        rw [hfind]
        dsimp only
        rw [if_pos htgt, hres]
        rfl
      · refine ⟨1, ?_⟩
        rw [resolveTypeAliasImpl, resolveStep, hsh]
        dsimp only
        rw [hfind]
        dsimp only
        rw [if_neg htgt]
        rfl

theorem terminates_iff_acc :
    Terminates aliases name ↔ Acc (fun sub name => Enters aliases name sub) name := by
  constructor
  · rintro ⟨fuel, hfuel⟩
    induction fuel generalizing name with
    | zero => cases hfuel
    | succ fuel ih => exact ⟨name, fun sub hsub => ih (hsub.isSome hfuel)⟩
  · intro h
    induction h with
    | intro name _ ih => exact terminates_of_enters ih

/-! ### Slots are shorter -/

theorem length_inner {name inner : Text} {start : ℕ}
    (h : bracketedInner name start = some inner) : inner.length < name.length := by
  unfold bracketedInner at h
  split_ifs at h with hbnd
  dsimp only at h
  split_ifs at h
  rw [← some.inj h, length_take, length_drop]
  omega

theorem length_of_scan {step : ℤ → UInt8 → Option ℤ} {depth : ℤ} {l : Text} {parts : Text × Text}
    (h : scan step depth l = some parts) :
    parts.1.length < l.length ∧ parts.2.length < l.length := by
  obtain ⟨c, hl⟩ := scan_eq_some h
  rw [hl, length_append, length_cons]
  omega

theorem length_arrayParts {parts : Text × Text} (h : arrayParts name = some parts) :
    parts.1.length < name.length := by
  obtain ⟨inner, hinn, rfl⟩ := map_eq_some_iff.mp h
  have hlt := length_inner hinn
  cases hsep : aliasTopLevelSeparator inner (byte ',') with
  | none => exact hlt
  | some split => exact Nat.lt_trans (length_of_scan hsep).1 hlt

theorem length_mapParts {parts : Text × Text} (h : mapParts name = some parts) :
    parts.1.length < name.length ∧ parts.2.length < name.length := by
  obtain ⟨inner, hinn, hsep⟩ := bind_eq_some_iff.mp h
  have hlt := length_inner hinn
  have hpts := length_of_scan hsep
  exact ⟨Nat.lt_trans hpts.1 hlt, Nat.lt_trans hpts.2 hlt⟩

theorem length_functionParts {parts : Text × Option Text}
    (h : functionParts name = some parts) :
    parts.1.length < name.length ∧ ∀ result ∈ parts.2, result.length < name.length := by
  unfold functionParts at h
  cases hscan : scan parenthesisStep 0 (name.drop 4) with
  | none =>
    rw [hscan] at h
    cases h
  | some split =>
    obtain ⟨beforeClose, tail⟩ := split
    have hlt := length_of_scan hscan
    rw [length_drop] at hlt
    rw [hscan] at h
    dsimp only at h hlt
    by_cases hlen : (beforeClose.drop 1).length < 256
    · rw [if_pos hlen] at h
      cases h
      dsimp only
      rw [length_drop]
      refine ⟨by omega, fun result hres => ?_⟩
      split_ifs at hres
      · rw [← some.inj (Option.mem_def.mp hres), length_drop]
        omega
      · cases hres
    · rw [if_neg hlen] at h
      cases h

theorem length_typeListSegments {fuel : ℕ} {list segment : Text}
    (h : segment ∈ typeListSegments fuel list) : segment.length ≤ list.length := by
  induction fuel generalizing list with
  | zero => cases h
  | succ fuel ih =>
    rw [typeListSegments] at h
    split_ifs at h
    · cases h
    · cases hsep : aliasTopLevelSeparator list (byte ',') with
      | none =>
        rw [hsep, mem_singleton] at h
        rw [h]
      | some split =>
        have hlt := length_of_scan hsep
        rw [hsep] at h
        rcases mem_cons.mp h with rfl | h
        · exact Nat.le_of_lt hlt.1
        · exact Nat.le_trans (ih h) (Nat.le_of_lt hlt.2)

theorem EntersSegment.exists_segment {resolvedList name : Text}
    {segments : List Text} (h : EntersSegment aliases resolvedList segments name) :
    ∃ segment ∈ segments, name = segmentType segment := by
  induction h with
  | head => exact ⟨_, mem_cons_self .., rfl⟩
  | tail _ _ _ ih =>
    obtain ⟨segment, hseg, hname⟩ := ih
    exact ⟨segment, mem_cons_of_mem _ hseg, hname⟩

theorem length_segmentType (segment : Text) : (segmentType segment).length ≤ segment.length := by
  unfold segmentType
  split_ifs
  · rw [length_drop]
    omega
  · exact le_rfl

variable (l : Text)

theorem typeShape_bracket : typeShape (byte '[' :: l) = match arrayParts (byte '[' :: l) with
      | some (element, suffix) => .array element suffix
      | none => .whole := rfl

theorem typeShape_map : typeShape (bytes "map[" ++ l) = match mapParts (bytes "map[" ++ l) with
      | some (key, value) => .map key value
      | none => .whole := rfl

theorem typeShape_func :
    typeShape (bytes "func(" ++ l) = match functionParts (bytes "func(" ++ l) with
      | some (parameters, result) => .function parameters result
      | none => .whole := rfl

theorem typeShape_spec (name : Text) :
    match typeShape name with
    | .pointer pointee => ∃ c, name = c :: pointee
    | .array element suffix => arrayParts name = some (element, suffix)
    | .map key value => mapParts name = some (key, value)
    | .function parameters result => functionParts name = some (parameters, result)
    | .whole | .name => True := by
  unfold typeShape
  split_ifs with hptr
  · obtain ⟨l, hl⟩ := List.isPrefixOf_iff_prefix.mp hptr
    rw [← hl]
    exact ⟨_, rfl⟩
  · cases hpts : arrayParts name with
    | none => trivial
    | some parts => rfl
  · cases hpts : mapParts name with
    | none => trivial
    | some parts => rfl
  · cases hpts : functionParts name with
    | none => trivial
    | some parts => rfl
  · trivial

theorem exists_cons_of_typeShape {name pointee : Text} (h : typeShape name = .pointer pointee) :
    ∃ c, name = c :: pointee := by
  have hspec := typeShape_spec name
  rwa [h] at hspec

theorem arrayParts_of_typeShape {name element suffix : Text}
    (h : typeShape name = .array element suffix) : arrayParts name = some (element, suffix) := by
  have hspec := typeShape_spec name
  rwa [h] at hspec

theorem mapParts_of_typeShape {name key value : Text} (h : typeShape name = .map key value) :
    mapParts name = some (key, value) := by
  have hspec := typeShape_spec name
  rwa [h] at hspec

theorem functionParts_of_typeShape {name parameters : Text} {result : Option Text}
    (h : typeShape name = .function parameters result) :
    functionParts name = some (parameters, result) := by
  have hspec := typeShape_spec name
  rwa [h] at hspec

theorem Enters.length_lt {name sub : Text} (h : Enters aliases name sub)
    (hsh : typeShape name ≠ .name) : sub.length < name.length := by
  cases h with
  | pointee h =>
    obtain ⟨c, hc⟩ := exists_cons_of_typeShape h
    rw [hc, length_cons]
    exact Nat.lt_succ_self _
  | element h => exact length_arrayParts (arrayParts_of_typeShape h)
  | key h => exact (length_mapParts (mapParts_of_typeShape h)).1
  | value h => exact (length_mapParts (mapParts_of_typeShape h)).2
  | @parameter parameters parameter result h hpar =>
    obtain ⟨segment, hseg, rfl⟩ := hpar.exists_segment
    have hlt := (length_functionParts (functionParts_of_typeShape h)).1
    exact Nat.lt_of_le_of_lt (Nat.le_trans (length_segmentType segment)
      (length_typeListSegments hseg)) hlt
  | result h =>
    exact (length_functionParts (functionParts_of_typeShape h)).2 _ rfl
  | target h _ => exact absurd h hsh

end Grayscale
