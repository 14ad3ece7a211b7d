import Grayscale.Codegen.DeepCopy
import Mathlib.Data.List.Forall2

/-!
# What the emitted copies share

A copy is structurally equal to its source whenever the emitted code yields one. It shares no
storage with its source if no piece of the value with storage is copied bitwise.
-/

namespace Grayscale

open CopyValue List
open Option (bind_eq_bind bind_eq_some_iff bind_some isSome_map map_eq_some_iff some.inj)

mutual

/-- The emitted code yields a copy, and copies no storage bitwise. -/
def copiesAll : CopyPlan → CopyValue → Prop
  | .bitwise, value => value.storages = []
  | .string, .string _ _ => True
  | .array element, .array _ elements =>
    copiesAllOf (replicate elements.length element) elements
  | .map key value, .map _ keys values =>
    copiesAllOf (replicate keys.length key) keys ∧
      copiesAllOf (replicate values.length value) values
  | .record key variants, .record key' variant fields =>
    key = key' ∧ ∃ plans, variants[variant]? = some plans ∧ copiesAllOf plans fields
  | _, _ => False

/-- The emitted code yields copies of values in order. -/
def copiesAllOf : List CopyPlan → List CopyValue → Prop
  | [], [] => True
  | plan :: plans, value :: values => copiesAll plan value ∧ copiesAllOf plans values
  | _, _ => False

end

/-! ### Running the emitted code -/

/-- What is known of a copy: it is equal to its source, and its storage is new. -/
structure IsFreshCopy (next : ℕ) (value copy : CopyValue) (next' : ℕ) : Prop where
  next_le : next ≤ next'
  structural_eq : copy.structural = value.structural
  le_storage : ∀ storage ∈ copy.storages, next ≤ storage

/-- What is known of copies in order. -/
structure AreFreshCopies (next : ℕ) (values copies : List CopyValue) (next' : ℕ) : Prop where
  next_le : next ≤ next'
  structural_eq : structuralOf copies = structuralOf values
  le_storage : ∀ storage ∈ storagesOf copies, next ≤ storage

mutual

theorem runCopy_of_copiesAll : ∀ (plan : CopyPlan) (value : CopyValue) (next : ℕ),
    copiesAll plan value →
      ∃ copy next', runCopy plan value next = some (copy, next') ∧ IsFreshCopy next value copy next'
  | .bitwise, value, next, h => by
    have hnone : value.storages = [] := by simpa only [copiesAll] using h
    refine ⟨value, next, by rw [runCopy], le_rfl, rfl, ?_⟩
    rw [hnone]
    exact fun _ hmem => absurd hmem not_mem_nil
  | .string, .string storage text, next, _ => by
    refine ⟨.string next text, next + 1, by rw [runCopy], Nat.le_succ next, ?_, ?_⟩
    · simp only [structural]
    · intro s hs
      simp only [storages, mem_singleton] at hs
      exact hs.ge
  | .array element, .array storage elements, next, h => by
    rw [copiesAll] at h
    obtain ⟨copies, next', hrun, hcop⟩ := runCopyOf_of_copiesAll _ elements (next + 1) h
    refine ⟨.array next copies, next', by rw [runCopy, hrun]; rfl, ?_, ?_, ?_⟩
    · exact (Nat.le_succ next).trans hcop.next_le
    · rw [structural, structural, hcop.structural_eq]
    · intro s hs
      rw [storages, mem_cons] at hs
      rcases hs with rfl | hs
      · exact le_rfl
      · exact (Nat.le_succ next).trans (hcop.le_storage s hs)
  | .map key value, .map storage keys values, next, h => by
    rw [copiesAll] at h
    obtain ⟨keys', next₁, hkeys, hcopiedKeys⟩ := runCopyOf_of_copiesAll _ keys (next + 1) h.1
    obtain ⟨values', next₂, hvals, hcopied⟩ := runCopyOf_of_copiesAll _ values next₁ h.2
    have hle : next ≤ next₁ := (Nat.le_succ next).trans hcopiedKeys.next_le
    refine ⟨.map next keys' values', next₂, ?_, hle.trans hcopied.next_le, ?_, ?_⟩
    · rw [runCopy, hkeys, bind_some, hvals]
      rfl
    · rw [structural, structural, hcopiedKeys.structural_eq, hcopied.structural_eq]
    · intro s hs
      rw [storages, mem_cons, mem_append] at hs
      rcases hs with rfl | hs | hs
      · exact le_rfl
      · exact (Nat.le_succ next).trans (hcopiedKeys.le_storage s hs)
      · exact hle.trans (hcopied.le_storage s hs)
  | .record key variants, .record key' variant fields, next, h => by
    rw [copiesAll] at h
    obtain ⟨rfl, plans, hplans, hfields⟩ := h
    obtain ⟨copies, next', hrun, hcop⟩ := runCopyOf_of_copiesAll plans fields next hfields
    refine ⟨.record key variant copies, next', ?_, hcop.next_le, ?_, ?_⟩
    · rw [runCopy, if_pos rfl, hplans, bind_some, hrun]
      rfl
    · rw [structural, structural, hcop.structural_eq]
    · intro s hs
      rw [storages] at hs
      exact hcop.le_storage s hs

theorem runCopyOf_of_copiesAll : ∀ (plans : List CopyPlan) (values : List CopyValue) (next : ℕ),
    copiesAllOf plans values → ∃ copies next', runCopyOf plans values next = some (copies, next') ∧
        AreFreshCopies next values copies next'
  | [], [], next, _ => by
    refine ⟨[], next, by rw [runCopyOf], le_rfl, rfl, ?_⟩
    rw [storagesOf]
    exact fun _ hmem => absurd hmem not_mem_nil
  | plan :: plans, value :: values, next, h => by
    rw [copiesAllOf] at h
    obtain ⟨copy, next₁, hcopy, hfr⟩ := runCopy_of_copiesAll plan value next h.1
    obtain ⟨copies, next₂, hcop, hrest⟩ := runCopyOf_of_copiesAll plans values next₁ h.2
    refine ⟨copy :: copies, next₂, ?_, hfr.next_le.trans hrest.next_le, ?_, ?_⟩
    · rw [runCopyOf, hcopy, bind_some, hcop]
      rfl
    · rw [structuralOf, structuralOf, hfr.structural_eq, hrest.structural_eq]
    · intro s hs
      rw [storagesOf, mem_append] at hs
      rcases hs with hs | hs
      · exact hfr.le_storage s hs
      · exact hfr.next_le.trans (hrest.le_storage s hs)

end

mutual

theorem copiesAll_of_runCopy : ∀ (plan : CopyPlan) (value : CopyValue) (next : ℕ)
    (copy : CopyValue) (next' : ℕ), runCopy plan value next = some (copy, next') →
      (∀ storage ∈ copy.storages, storage ∉ value.storages) → copiesAll plan value
  | .bitwise, value, next, copy, next', hrun, hnew => by
    rw [runCopy] at hrun
    cases hrun
    rw [copiesAll]
    exact eq_nil_iff_forall_not_mem.mpr fun s hs => hnew s hs hs
  | .string, .string storage text, _, _, _, _, _ => by rw [copiesAll]; trivial
  | .array element, .array storage elements, next, copy, next', hrun, hnew => by
    rw [runCopy, map_eq_some_iff] at hrun
    obtain ⟨⟨copies, _⟩, hcop, heq⟩ := hrun
    cases heq
    rw [copiesAll]
    refine copiesAll_of_runCopyOf _ elements _ copies _ hcop fun s hs hmem => ?_
    exact hnew s (by rw [storages]; exact mem_cons_of_mem _ hs)
      (by rw [storages]; exact mem_cons_of_mem _ hmem)
  | .map key value, .map storage keys values, next, copy, next', hrun, hnew => by
    rw [runCopy, bind_eq_some_iff] at hrun
    obtain ⟨⟨keys', next₁⟩, hkeys, hrun⟩ := hrun
    rw [map_eq_some_iff] at hrun
    obtain ⟨⟨values', _⟩, hvals, heq⟩ := hrun
    cases heq
    rw [copiesAll]
    refine ⟨copiesAll_of_runCopyOf _ keys _ keys' _ hkeys fun s hs hmem => ?_,
      copiesAll_of_runCopyOf _ values _ values' _ hvals fun s hs hmem => ?_⟩
    · refine hnew s ?_ ?_ <;> rw [storages, mem_cons, mem_append]
      · exact .inr (.inl hs)
      · exact .inr (.inl hmem)
    · refine hnew s ?_ ?_ <;> rw [storages, mem_cons, mem_append]
      · exact .inr (.inr hs)
      · exact .inr (.inr hmem)
  | .record key variants, .record key' variant fields, next, copy, next', hrun, hnew => by
    rw [runCopy] at hrun
    split_ifs at hrun with hkey
    rw [bind_eq_some_iff] at hrun
    obtain ⟨plans, hplans, hrun⟩ := hrun
    rw [map_eq_some_iff] at hrun
    obtain ⟨⟨copies, _⟩, hcop, heq⟩ := hrun
    cases heq
    rw [copiesAll]
    refine ⟨hkey, plans, hplans,
      copiesAll_of_runCopyOf plans fields _ copies _ hcop fun s hs hmem => ?_⟩
    exact hnew s (by rw [storages]; exact hs) (by rw [storages]; exact hmem)

theorem copiesAll_of_runCopyOf : ∀ (plans : List CopyPlan) (values : List CopyValue) (next : ℕ)
    (copies : List CopyValue) (next' : ℕ), runCopyOf plans values next = some (copies, next') →
      (∀ storage ∈ storagesOf copies, storage ∉ storagesOf values) → copiesAllOf plans values
  | [], [], _, _, _, _, _ => by rw [copiesAllOf]; trivial
  | plan :: plans, value :: values, next, copies, next', hrun, hnew => by
    rw [runCopyOf, bind_eq_some_iff] at hrun
    obtain ⟨⟨copy, next₁⟩, hcopy, hrun⟩ := hrun
    rw [map_eq_some_iff] at hrun
    obtain ⟨⟨rest, _⟩, hrest, heq⟩ := hrun
    cases heq
    rw [copiesAllOf]
    refine ⟨copiesAll_of_runCopy plan value _ copy _ hcopy fun s hs hmem => ?_,
      copiesAll_of_runCopyOf plans values _ rest _ hrest fun s hs hmem => ?_⟩
    · refine hnew s ?_ ?_ <;> rw [storagesOf, mem_append]
      · exact .inl hs
      · exact .inl hmem
    · refine hnew s ?_ ?_ <;> rw [storagesOf, mem_append]
      · exact .inr hs
      · exact .inr hmem

end

/-! ### The emitted code of a type -/

theorem copiesAllOf_replicate (plan : CopyPlan) (values : List CopyValue) :
    copiesAllOf (replicate values.length plan) values ↔ ∀ x ∈ values, copiesAll plan x := by
  induction values with
  | nil => simp [copiesAllOf]
  | cons value values ih =>
    rw [length_cons, replicate_succ, copiesAllOf, ih, forall_mem_cons]

theorem copiesAll_array (element : CopyPlan) (value : CopyValue) :
    copiesAll (.array element) value ↔ ∃ storage elements, value = .array storage elements ∧
      ∀ x ∈ elements, copiesAll element x := by
  constructor
  · intro h
    cases value with
    | array storage elements =>
      rw [copiesAll, copiesAllOf_replicate] at h
      exact ⟨storage, elements, rfl, h⟩
    | _ => simp only [copiesAll] at h
  · rintro ⟨storage, elements, rfl, h⟩
    rw [copiesAll, copiesAllOf_replicate]
    exact h

theorem copiesAll_map (key element : CopyPlan) (value : CopyValue) :
    copiesAll (.map key element) value ↔ ∃ storage keys values, value = .map storage keys values ∧
      (∀ k ∈ keys, copiesAll key k) ∧ ∀ x ∈ values, copiesAll element x := by
  constructor
  · intro h
    cases value with
    | map storage keys values =>
      rw [copiesAll, copiesAllOf_replicate, copiesAllOf_replicate] at h
      exact ⟨storage, keys, values, rfl, h⟩
    | _ => simp only [copiesAll] at h
  · rintro ⟨storage, keys, values, rfl, h⟩
    rw [copiesAll, copiesAllOf_replicate, copiesAllOf_replicate]
    exact h

theorem copiesAll_record (key : Text) (variants : List (List CopyPlan)) (value : CopyValue) :
    copiesAll (.record key variants) value ↔ ∃ variant plans fields, variants[variant]? = some plans ∧
      value = .record key variant fields ∧ copiesAllOf plans fields := by
  constructor
  · intro h
    cases value with
    | record key' variant fields =>
      rw [copiesAll] at h
      obtain ⟨rfl, plans, hplans, hfields⟩ := h
      exact ⟨variant, plans, fields, hplans, rfl, hfields⟩
    | _ => simp only [copiesAll] at h
  · rintro ⟨variant, plans, fields, hplans, rfl, hfields⟩
    rw [copiesAll]
    exact ⟨rfl, plans, hplans, hfields⟩

theorem copiesAll_string (value : CopyValue) :
    copiesAll .string value ↔ ∃ storage text, value = .string storage text := by
  constructor
  · intro h
    cases value with
    | string storage text => exact ⟨storage, text, rfl⟩
    | _ => simp only [copiesAll] at h
  · rintro ⟨storage, text, rfl⟩
    rw [copiesAll]
    trivial

theorem copiesAll_bitwise (value : CopyValue) : copiesAll .bitwise value ↔ value.storages = [] := by
  rw [copiesAll]

theorem copiesAll_keyCopy (hasStringKeys : Bool) (key : CopyValue) :
    copiesAll (keyCopy hasStringKeys) key ↔
      if hasStringKeys then ∃ storage text, key = .string storage text else key.storages = [] := by
  cases hasStringKeys with
  | true => exact copiesAll_string key
  | false => exact copiesAll_bitwise key

section Emitted

variable {names : TypeNames} {module : Text} {emit : Text → Option CopyPlan}
  {covers : Text → CopyValue → Prop}

variable {type : CopiedType}

theorem coversType_of_not_needs
    (hnds : typeNeedsDeepCopy names module type = some false) (value : CopyValue) :
    coversType names module covers type value ↔ value.storages = [] := by
  cases type with
  | flat => rw [coversType]
  | string => cases hnds
  | array element => cases hnds
  | map hasStringKeys element => cases hnds
  | named name => rw [coversType, hnds, if_neg (by simp)]

theorem copiesAll_element {plan : CopyPlan}
    (hemit : ((typeNeedsDeepCopy names module type).bind fun isNeeded =>
      if isNeeded then emitCopyOf (typeNeedsDeepCopy names module) emit type
      else some .bitwise) = some plan)
    (hcop : ∀ plan, emitCopyOf (typeNeedsDeepCopy names module) emit type = some plan →
      ∀ value, copiesAll plan value ↔ coversType names module covers type value)
    (value : CopyValue) : copiesAll plan value ↔ coversType names module covers type value := by
  obtain ⟨isNeeded, hnds, hplan⟩ := bind_eq_some_iff.mp hemit
  cases isNeeded with
  | true => exact hcop plan hplan value
  | false =>
    cases hplan
    rw [copiesAll_bitwise, coversType_of_not_needs hnds]

theorem exists_elementPlan {container : CopyPlan → CopyPlan} {plan : CopyPlan}
    (hemit : ((typeNeedsDeepCopy names module type).bind fun isNeeded =>
      if isNeeded then (emitCopyOf (typeNeedsDeepCopy names module) emit type).map container
      else some (container .bitwise)) = some plan) : ∃ element, plan = container element ∧
      ((typeNeedsDeepCopy names module type).bind fun isNeeded =>
        if isNeeded then emitCopyOf (typeNeedsDeepCopy names module) emit type
        else some .bitwise) = some element := by
  obtain ⟨isNeeded, hnds, hplan⟩ := bind_eq_some_iff.mp hemit
  rw [hnds]
  cases isNeeded with
  | true =>
    obtain ⟨element, helem, rfl⟩ := map_eq_some_iff.mp hplan
    exact ⟨element, rfl, helem⟩
  | false =>
    cases hplan
    exact ⟨.bitwise, rfl, rfl⟩

theorem copiesAll_iff_coversType
    (hnamed : ∀ name plan, emit name = some plan →
      ∀ value, copiesAll plan value ↔ covers name value)
    {type : CopiedType} {plan : CopyPlan}
    (hemit : emitCopyOf (typeNeedsDeepCopy names module) emit type = some plan)
    (value : CopyValue) : copiesAll plan value ↔ coversType names module covers type value := by
  induction type generalizing plan value with
  | flat =>
    cases hemit
    rw [copiesAll_bitwise, coversType]
  | string =>
    cases hemit
    rw [copiesAll_string, coversType]
  | array element ih =>
    obtain ⟨element', rfl, helem⟩ := exists_elementPlan hemit
    have hcop := copiesAll_element helem fun plan hplan value => ih hplan value
    rw [copiesAll_array, coversType]
    simp only [hcop]
  | map hasStringKeys element ih =>
    obtain ⟨element', rfl, helem⟩ := exists_elementPlan hemit
    have hcop := copiesAll_element helem fun plan hplan value => ih hplan value
    rw [copiesAll_map, coversType]
    simp only [hcop, copiesAll_keyCopy]
  | named name =>
    obtain ⟨isNeeded, hnds, hplan⟩ := bind_eq_some_iff.mp hemit
    cases isNeeded with
    | true =>
      rw [coversType, if_pos hnds]
      exact hnamed name plan hplan value
    | false =>
      cases hplan
      rw [copiesAll_bitwise, coversType_of_not_needs hnds]

end Emitted

variable {α β : Type*}

theorem forall₂_of_mapM {f : α → Option β} {l : List α} {results : List β}
    (h : l.mapM f = some results) : List.Forall₂ (fun a b => f a = some b) l results := by
  induction l generalizing results with
  | nil =>
    cases h
    exact .nil
  | cons a l ih =>
    rw [mapM_cons, bind_eq_bind, bind_eq_some_iff] at h
    obtain ⟨b, hb, h⟩ := h
    rw [bind_eq_bind, bind_eq_some_iff] at h
    obtain ⟨rest, hrest, h⟩ := h
    cases h
    exact .cons hb (ih hrest)

theorem rel_getElem?_of_forall₂ {R : α → β → Prop} {l : List α} {results : List β}
    (h : List.Forall₂ R l results) (i : ℕ) : Option.Rel R l[i]? results[i]? := by
  induction h generalizing i with
  | nil => exact .none
  | cons hab hrest ih =>
    cases i with
    | zero => exact .some hab
    | succ i => exact ih i

theorem copiesAllOf_iff_forall₂ {f : CopiedType → Option CopyPlan}
    {covers : CopiedType → CopyValue → Prop}
    (hf : ∀ type plan, f type = some plan → ∀ value, copiesAll plan value ↔ covers type value)
    {types : List CopiedType} {plans : List CopyPlan}
    (h : List.Forall₂ (fun type plan => f type = some plan) types plans) (fields : List CopyValue) :
    copiesAllOf plans fields ↔ List.Forall₂ covers types fields := by
  induction h generalizing fields with
  | nil =>
    cases fields with
    | nil => simp [copiesAllOf]
    | cons value fields => simp [copiesAllOf]
  | cons hplan hrest ih =>
    cases fields with
    | nil => simp [copiesAllOf]
    | cons value fields =>
      rw [copiesAllOf, forall₂_cons, ih, hf _ _ hplan]

variable {names : TypeNames} {module : Text}

theorem copiesAll_iff_coversNamed (room : ℕ)
    (guards : CopyGuards) (name : Text) (plan : CopyPlan)
    (hemit : emitNamedCopy names module room guards name = some plan) (value : CopyValue) :
    copiesAll plan value ↔ coversNamed names module room guards name value := by
  induction room generalizing guards name plan value with
  | zero => cases hemit
  | succ room ih =>
    rw [emitNamedCopy] at hemit
    rw [coversNamed]
    cases hfnd : names.found module name with
    | none =>
      rw [hfnd] at hemit
      cases hemit
      exact copiesAll_bitwise value
    | some declared =>
      obtain ⟨key, declaration⟩ := declared
      rw [hfnd] at hemit
      dsimp only at hemit ⊢
      by_cases hhas : guards.has name declaration = true
      · rw [if_pos hhas] at hemit ⊢
        cases hemit
        exact copiesAll_bitwise value
      · rw [if_neg hhas] at hemit ⊢
        obtain ⟨inner, hinn, hemit⟩ := bind_eq_some_iff.mp hemit
        obtain ⟨variants, hvariants, rfl⟩ := map_eq_some_iff.mp hemit
        have hforall := forall₂_of_mapM hvariants
        have hcovers : ∀ type plan, emitCopyOf (typeNeedsDeepCopy names module)
            (emitNamedCopy names module room inner) type = some plan → ∀ value,
              copiesAll plan value ↔
                coversType names module (coversNamed names module room inner) type value :=
          fun type plan hplan value =>
            copiesAll_iff_coversType (fun name plan hplan value => ih inner name plan hplan value)
              hplan value
        rw [copiesAll_record]
        constructor
        · rintro ⟨variant, plans, fields, hplans, rfl, hfields⟩
          have hrel := rel_getElem?_of_forall₂ hforall variant
          rw [hplans] at hrel
          generalize htys : declaration.variants[variant]? = types at hrel
          cases hrel with
          | some htypesPlans =>
            exact ⟨inner, variant, _, fields, hinn, htys, rfl,
              (copiesAllOf_iff_forall₂ hcovers (forall₂_of_mapM htypesPlans) fields).mp hfields⟩
        · rintro ⟨inner', variant, types, fields, hinn', htys, rfl, hfields⟩
          cases some.inj (hinn.symm.trans hinn')
          have hrel := rel_getElem?_of_forall₂ hforall variant
          rw [htys] at hrel
          generalize hplans : variants[variant]? = plans at hrel
          cases hrel with
          | some htypesPlans =>
            exact ⟨variant, _, fields, hplans, rfl,
              (copiesAllOf_iff_forall₂ hcovers (forall₂_of_mapM htypesPlans) fields).mpr hfields⟩

theorem copiesAll_iff_coversValue {type : CopiedType}
    {plan : CopyPlan} (hemit : emitValueDeepCopy names module type = some plan)
    (value : CopyValue) : copiesAll plan value ↔ CoversValue names module type value :=
  copiesAll_iff_coversType (fun name plan hplan value =>
    copiesAll_iff_coversNamed copyRoom ⟨[], []⟩ name plan hplan value) hemit value

theorem exists_storage_bound (l : List ℕ) : ∃ next, ∀ storage ∈ l, storage < next := by
  induction l with
  | nil => exact ⟨0, fun _ hmem => absurd hmem not_mem_nil⟩
  | cons s l ih =>
    obtain ⟨next, hnext⟩ := ih
    refine ⟨max (s + 1) next, forall_mem_cons.mpr ⟨by omega, fun t ht => ?_⟩⟩
    have := hnext t ht
    omega

/-! ### Room in the stacks -/

theorem isSome_mapM {f : α → Option β} {l : List α} :
    (l.mapM f).isSome = true ↔ ∀ a ∈ l, (f a).isSome = true := by
  induction l with
  | nil => simp
  | cons a l ih =>
    rw [forall_mem_cons, ← ih, mapM_cons]
    cases f a with
    | none => simp
    | some b => cases l.mapM f <;> simp

theorem isSome_bind_ite {needs : Option Bool} {a : Option CopyPlan} {b : CopyPlan} :
    (needs.bind fun isNeeded => if isNeeded then a else some b).isSome = true ↔
      needs.isSome = true ∧ (needs = some true → a.isSome = true) := by
  cases needs with
  | none => simp
  | some isNeeded => cases isNeeded <;> simp

theorem isSome_emitCopyOf {needs : CopiedType → Option Bool} {emit : Text → Option CopyPlan}
    {fits : Text → Prop} (hfits : ∀ name, (emit name).isSome = true ↔ fits name)
    (type : CopiedType) :
    (emitCopyOf needs emit type).isSome = true ↔ fitsType needs fits type := by
  induction type with
  | flat => exact iff_of_true rfl trivial
  | string => exact iff_of_true rfl trivial
  | array element ih =>
    rw [emitCopyOf, isSome_bind_ite, fitsType, isSome_map, ih]
  | map hasStringKeys element ih =>
    rw [emitCopyOf, isSome_bind_ite, fitsType, isSome_map, ih]
  | named name =>
    rw [emitCopyOf, isSome_bind_ite, fitsType, hfits]

theorem isSome_emitNamedCopy (room : ℕ) (guards : CopyGuards)
    (name : Text) : (emitNamedCopy names module room guards name).isSome = true ↔
      fitsNamed names module room guards name := by
  induction room generalizing guards name with
  | zero => exact iff_of_false Bool.false_ne_true not_false
  | succ room ih =>
    rw [emitNamedCopy, fitsNamed]
    cases hfnd : names.found module name with
    | none => exact iff_of_true rfl trivial
    | some declared =>
      obtain ⟨key, declaration⟩ := declared
      dsimp only
      by_cases hhas : guards.has name declaration = true
      · rw [if_pos hhas]
        exact iff_of_true rfl fun hnone => absurd hhas (by rw [hnone]; exact Bool.false_ne_true)
      · rw [if_neg hhas]
        cases hpush : guards.push name declaration with
        | none => simp [hhas]
        | some inner =>
          rw [bind_some, isSome_map, isSome_mapM]
          simp only [isSome_mapM, isSome_emitCopyOf (ih inner), hhas, forall_const,
            Option.some.injEq, exists_eq_left']

/-- A program whose struct `Node` has an array of nodes. -/
def nodeTypeNames : TypeNames where
  resolveType _ name := name
  declaration key :=
    if key = bytes "Node" then some (.struct [.array (.named (bytes "Node"))]) else none
  aliasTarget _ := none
  home _ := []

/-- A node with a node without children in it. -/
def nestedNode : CopyValue :=
  .record (bytes "Node") 0 [.array 0 [.record (bytes "Node") 0 [.array 1 []]]]

end Grayscale
