import Grayscale.Codegen.CallArguments
import Mathlib.Data.List.Nodup

/-!
# When the arguments of a call keep their meaning

The emitted call passes the written arguments and the defaults if and only if the arguments are in
their places and no name in them is captured at the call. The resolution of named arguments is right
for every accepted call outside of a generic function; there it is right the first time, and lost
afterwards. The rest is about the scopes: the arguments are evaluated in the scope of the caller
behind the variables with the names of the parameters, or the defaults without them.
-/

namespace Grayscale

open List
open Option (bind_assoc bind_eq_some_iff bind_some map_eq_bind map_eq_some_iff map_some some.inj)

variable {ω : Type}

/-! ### Resolution -/

/-- The slots after some of the named arguments are put into theirs. -/
def NamedPlaced (parameters : List (CallParameter ω)) (arguments : List (WrittenArgument ω))
    (positional : ℕ) (done : List (WrittenArgument ω))
    (slots : List (Option (WrittenArgument ω))) : Prop := slots.length = parameters.length ∧
    ∀ i parameter, parameters[i]? = some parameter →
      slots[i]? = some (if i < positional then arguments[i]?
        else done.find? fun argument => argument.name = some parameter.name)

theorem namedPlaced_nil (parameters : List (CallParameter ω))
    (arguments : List (WrittenArgument ω)) (positional : ℕ) :
    NamedPlaced parameters arguments positional [] (parameters.mapIdx fun i _ =>
      if i < positional then arguments[i]? else none) := by
  refine ⟨length_mapIdx, fun i parameter hpar => ?_⟩
  simp [getElem?_mapIdx, hpar]

variable {parameters : List (CallParameter ω)}

theorem index_eq_of_name_eq
    (hnd : (parameters.map CallParameter.name).Nodup) {i j : ℕ} {p q : CallParameter ω}
    (hp : parameters[i]? = some p) (hq : parameters[j]? = some q) (h : p.name = q.name) : i = j := by
  obtain ⟨hi, rfl⟩ := List.getElem?_eq_some_iff.1 hp
  obtain ⟨hj, rfl⟩ := List.getElem?_eq_some_iff.1 hq
  have hi' : i < (parameters.map CallParameter.name).length := by simpa using hi
  have hj' : j < (parameters.map CallParameter.name).length := by simpa using hj
  have hsame : (parameters.map CallParameter.name)[i] =
      (parameters.map CallParameter.name)[j] := by simpa using h
  exact (List.Nodup.getElem_inj_iff hnd).1 hsame

theorem NamedPlaced.place
    {arguments done : List (WrittenArgument ω)} {positional : ℕ}
    {slots slots' : List (Option (WrittenArgument ω))} {argument : WrittenArgument ω}
    (hnd : (parameters.map CallParameter.name).Nodup)
    (h : NamedPlaced parameters arguments positional done slots)
    (hplc : placeNamed parameters slots argument = some slots')
    (hpos : positional ≤ arguments.length) :
    NamedPlaced parameters arguments positional (done ++ [argument]) slots' := by
  obtain ⟨hlen, hslt⟩ := h
  obtain ⟨slot, hfind, hset⟩ := bind_eq_some_iff.1 hplc
  split at hset
  · cases hset
  · rename_i hfree
    cases hset
    obtain ⟨hslot, hname, -⟩ := findIdx?_eq_some_iff_getElem.1 hfind
    simp only [decide_eq_true_eq] at hname
    refine ⟨by simp [hlen], fun i parameter hpar => ?_⟩
    rcases eq_or_ne i slot with rfl | hne
    · have hself : parameters[i] = parameter := by simpa [hslot] using hpar
      have hold := hslt i parameter hpar
      rw [hold] at hfree
      have hlate : ¬ i < positional := by
        intro hlt
        rw [if_pos hlt, getElem?_eq_getElem (by omega)] at hfree
        simp at hfree
      rw [if_neg hlate] at hfree ⊢
      have hnone : done.find? (fun argument => argument.name = some parameter.name) = none := by
        simpa using hfree
      rw [getElem?_set_self (by omega), find?_append, hnone]
      simp [hname, hself]
    · have hoth : argument.name ≠ some parameter.name := by
        rw [hname]
        intro heq
        exact hne (index_eq_of_name_eq hnd hpar (getElem?_eq_getElem hslot)
          (some.inj heq).symm)
      rw [getElem?_set_ne hne.symm, hslt i parameter hpar, find?_append]
      simp [hoth]

variable {arguments : List (WrittenArgument ω)}

theorem NamedPlaced.foldlM {positional : ℕ}
    (hnd : (parameters.map CallParameter.name).Nodup)
    (hpos : positional ≤ arguments.length) :
    ∀ {named done : List (WrittenArgument ω)} {slots slots' : List (Option (WrittenArgument ω))},
      NamedPlaced parameters arguments positional done slots →
        named.foldlM (placeNamed parameters) slots = some slots' →
          NamedPlaced parameters arguments positional (done ++ named) slots'
  | [], done, slots, slots', h, hfold => by
    cases hfold
    simpa using h
  | argument :: named, done, slots, slots', h, hfold => by
    rw [foldlM_cons] at hfold
    obtain ⟨next, hplc, hfold⟩ := bind_eq_some_iff.1 hfold
    simpa using (h.place hnd hplc hpos).foldlM hnd hpos hfold

variable {slots : List (Option (WrittenArgument ω))}

theorem getElem?_filledSlots {i : ℕ}
    {slot : Option (WrittenArgument ω)} (h : slots[i]? = some slot) :
    (filledSlots slots)[i]? = some slot ∨ (filledSlots slots)[i]? = none ∧ slot = none := by
  have hspl : filledSlots slots ++ slots.rtakeWhile Option.isNone = slots :=
    rdropWhile_append_rtakeWhile ..
  rw [← hspl] at h
  rcases lt_or_ge i (filledSlots slots).length with hlt | hge
  · exact .inl (by rwa [getElem?_append_left hlt] at h)
  · rw [getElem?_append_right hge] at h
    have hnone := mem_rtakeWhile_imp (mem_of_getElem? h)
    exact .inr ⟨getElem?_eq_none hge, by simpa using hnone⟩

/-- The slots of a call: what is passed for each parameter up to the last one that is given. -/
def SlotsFor (parameters : List (CallParameter ω)) (arguments : List (WrittenArgument ω))
    (slots : List (Option (ArgumentSlot ω))) : Prop :=
  ∀ i parameter, parameters[i]? = some parameter →
    fillGap parameter (writtenFor arguments i parameter) =
      slots[i]?.getD (parameter.defaultValue.map .default)

theorem writtenFor_positional
    (h : ∀ argument ∈ arguments, argument.name = none) (i : ℕ) (parameter : CallParameter ω) :
    writtenFor arguments i parameter = arguments[i]? := by
  have hcnt : positionalCount arguments = arguments.length := by
    rw [positionalCount, takeWhile_eq_self_iff.2 fun argument harg => by
      simp [h argument harg]]
  unfold writtenFor
  rw [hcnt]
  split
  · rfl
  · rw [getElem?_eq_none (by omega), find?_eq_none]
    intro argument harg
    simp [h argument harg]

theorem mem_of_writtenFor {i : ℕ}
    {parameter : CallParameter ω} {argument : WrittenArgument ω}
    (h : writtenFor arguments i parameter = some argument) : argument ∈ arguments := by
  unfold writtenFor at h
  split at h
  · exact mem_of_getElem? h
  · exact mem_of_find?_eq_some h

theorem slotsFor_positional (parameters : List (CallParameter ω))
    {arguments : List (WrittenArgument ω)}
    (h : ∀ argument ∈ arguments, argument.name = none) :
    SlotsFor parameters arguments (arguments.map fun argument => some (.written argument)) := by
  intro i parameter _
  rw [writtenFor_positional h, getElem?_map]
  cases arguments[i]? <;> rfl

theorem find?_drop_positionalCount (arguments : List (WrittenArgument ω)) (name : Text) :
    (arguments.drop (positionalCount arguments)).find? (fun argument => argument.name = some name) =
      arguments.find? fun argument => argument.name = some name := by
  have hspl := arguments.takeWhile_append_dropWhile (p := fun argument => argument.name.isNone)
  have hdrop : arguments.drop (positionalCount arguments) =
      arguments.dropWhile fun argument => argument.name.isNone :=
    (congrArg (List.drop _) hspl.symm).trans drop_left
  have hpos : (arguments.takeWhile fun argument => argument.name.isNone).find?
      (fun argument => argument.name = some name) = none := by
    simp only [find?_eq_none]
    intro argument harg
    have hnone := mem_takeWhile_imp harg
    simp_all
  calc (arguments.drop (positionalCount arguments)).find? (fun argument => argument.name = some name)
      = (arguments.takeWhile (fun argument => argument.name.isNone) ++
          arguments.dropWhile fun argument => argument.name.isNone).find?
            fun argument => argument.name = some name := by
        rw [find?_append, hpos, hdrop, Option.none_or]
    _ = arguments.find? fun argument => argument.name = some name := by rw [hspl]

theorem slotsFor_named
    (h : NamedPlaced parameters arguments (positionalCount arguments)
      (arguments.drop (positionalCount arguments)) slots) :
    SlotsFor parameters arguments (List.zipWith fillGap parameters (filledSlots slots)) := by
  intro i parameter hpar
  have hslot := h.2 i parameter hpar
  rw [find?_drop_positionalCount] at hslot
  rw [getElem?_zipWith, hpar]
  rcases getElem?_filledSlots hslot with hfilled | ⟨hend, hnone⟩
  · simp [hfilled, writtenFor]
  · simp [hend, writtenFor, hnone, fillGap]

theorem resolveNamedArguments_slotsFor {slots : List (Option (ArgumentSlot ω))}
    (hnd : (parameters.map CallParameter.name).Nodup)
    (h : resolveNamedArguments parameters arguments = some slots) :
    SlotsFor parameters arguments slots := by
  unfold resolveNamedArguments at h
  split at h
  · rename_i hall
    cases h
    exact slotsFor_positional parameters (by simpa using hall)
  · dsimp only at h
    split at h
    · obtain ⟨placed, hfold, rfl⟩ := map_eq_some_iff.1 h
      have hpos : positionalCount arguments ≤ arguments.length :=
        (List.takeWhile_prefix _).length_le
      exact slotsFor_named (by
        simpa using (namedPlaced_nil parameters arguments _).foldlM hnd hpos hfold)
    · cases h

theorem filledSlots_append_none {slots rest : List (Option (WrittenArgument ω))}
    (h : ∀ slot ∈ rest, slot = none) : filledSlots (slots ++ rest) = filledSlots slots := by
  rw [filledSlots, filledSlots, List.rdropWhile, List.rdropWhile, reverse_append,
    dropWhile_append_of_pos]
  intro slot hslot
  simp [h slot (mem_reverse.1 hslot)]

theorem filledSlots_map_some (arguments : List (WrittenArgument ω)) :
    filledSlots (arguments.map some) = arguments.map some := by
  refine rdropWhile_eq_self_iff.2 fun hne => ?_
  obtain ⟨argument, -, hlast⟩ := mem_map.1 (getLast_mem hne)
  simp [← hlast]

theorem mapIdx_writtenFor_places
    (h : ∀ i parameter, parameters[i]? = some parameter →
      writtenFor arguments i parameter = arguments[i]?)
    (hlen : arguments.length ≤ parameters.length) : parameters.mapIdx (writtenFor arguments) =
      arguments.map some ++ replicate (parameters.length - arguments.length) none := by
  refine ext_getElem? fun i => ?_
  rw [getElem?_mapIdx, getElem?_append]
  rcases hpar : parameters[i]? with _ | parameter
  · have hge := List.getElem?_eq_none_iff.1 hpar
    rw [if_neg (by simp; omega), getElem?_eq_none (by simp; omega)]
    rfl
  · obtain ⟨hi, -⟩ := List.getElem?_eq_some_iff.1 hpar
    rw [map_some, h i parameter hpar]
    split
    · rename_i hlt
      simp at hlt
      simp [hlt]
    · rename_i hge
      simp at hge
      rw [getElem?_eq_none hge, getElem?_replicate, if_pos (by simp; omega)]

theorem mapIdx_writtenFor_named
    (h : NamedPlaced parameters arguments (positionalCount arguments)
      (arguments.drop (positionalCount arguments)) slots) :
    parameters.mapIdx (writtenFor arguments) = slots := by
  refine ext_getElem? fun i => ?_
  rw [getElem?_mapIdx]
  rcases hpar : parameters[i]? with _ | parameter
  · have hge := List.getElem?_eq_none_iff.1 hpar
    exact (getElem?_eq_none (by rw [h.1]; exact hge)).symm
  · rw [h.2 i parameter hpar, find?_drop_positionalCount]
    rfl

variable {callee : Callee ω}

theorem checkCount_eq_some {slots slots' : List (Option (ArgumentSlot ω))}
    (h : checkCount callee slots = some slots') : slots = slots' ∧
      callee.parameters.countP (fun parameter => parameter.defaultValue.isNone) ≤ slots.length ∧
      slots.length ≤ callee.parameters.length := by
  unfold checkCount at h
  split at h
  · rename_i hcnt
    exact ⟨some.inj h, hcnt⟩
  · cases h

variable {caller : CallerScope} (call : AcceptedCall callee caller)

theorem AcceptedCall.slots_cases : call.isInGeneric = false ∧
        resolveNamedArguments callee.parameters call.arguments = some call.slots ∨
      call.isInGeneric = true ∧
        call.slots = call.arguments.map fun argument => some (.written argument) := by
  obtain ⟨resolved, hres, hacc⟩ := bind_eq_some_iff.1 call.accepted
  obtain ⟨slots, hresolve, hcnt⟩ := bind_eq_some_iff.1 hres
  obtain ⟨rfl, -⟩ := checkCount_eq_some hcnt
  split at hacc
  · rename_i hgen
    exact .inr ⟨hgen, (checkCount_eq_some hacc).1.symm⟩
  · rename_i hgen
    cases hacc
    exact .inl ⟨by simpa using hgen, hresolve⟩

theorem AcceptedCall.count :
    callee.parameters.countP (fun parameter => parameter.defaultValue.isNone) ≤ call.slots.length ∧
      call.slots.length ≤ callee.parameters.length := by
  obtain ⟨resolved, hres, hacc⟩ := bind_eq_some_iff.1 call.accepted
  obtain ⟨slots, -, hchk⟩ := bind_eq_some_iff.1 hres
  obtain ⟨rfl, hcnt⟩ := checkCount_eq_some hchk
  split at hacc
  · obtain ⟨hslt, hcnt⟩ := checkCount_eq_some hacc
    rwa [hslt] at hcnt
  · rwa [some.inj hacc] at hcnt

/-- The arguments of the call keep their places where they lose their names. -/
def AcceptedCall.KeepsPlaces {callee : Callee ω} {caller : CallerScope}
    (call : AcceptedCall callee caller) : Prop :=
  call.isInGeneric = true → InOrder callee call.arguments

theorem named_of_resolveNamedArguments {slots : List (Option (ArgumentSlot ω))}
    (h : resolveNamedArguments parameters arguments = some slots) :
    ∀ argument ∈ arguments.drop (positionalCount arguments), argument.name.isSome = true := by
  unfold resolveNamedArguments at h
  split at h
  · rename_i hall
    rw [positionalCount, takeWhile_eq_self_iff.2 (by simpa using hall), drop_length]
    simp
  · dsimp only at h
    split at h
    · rename_i hnamed
      simpa using hnamed.1
    · cases h

theorem InOrder.index_eq
    (h : InOrder callee arguments) (hlen : arguments.length ≤ callee.parameters.length)
    {i j : ℕ} {argument : WrittenArgument ω} {parameter : CallParameter ω}
    (harg : arguments[j]? = some argument) (hpar : callee.parameters[i]? = some parameter)
    (hname : argument.name = some parameter.name) : j = i := by
  obtain ⟨hj, -⟩ := List.getElem?_eq_some_iff.1 harg
  have hplc := getElem?_eq_getElem (l := callee.parameters) (i := j) (by omega)
  rcases h j argument _ harg hplc with hnone | hown
  · rw [hname] at hnone
    cases hnone
  · exact index_eq_of_name_eq callee.nodup hplc hpar
      (some.inj (hown.symm.trans hname))

theorem InOrder.writtenFor_eq
    {slots : List (Option (ArgumentSlot ω))}
    (h : InOrder callee arguments) (hlen : arguments.length ≤ callee.parameters.length)
    (hres : resolveNamedArguments callee.parameters arguments = some slots) {i : ℕ}
    {parameter : CallParameter ω} (hpar : callee.parameters[i]? = some parameter) :
    writtenFor arguments i parameter = arguments[i]? := by
  unfold writtenFor
  split
  · rfl
  · rename_i hlate
    rcases harg : arguments[i]? with _ | argument
    · simp only [find?_eq_none, decide_eq_true_eq]
      intro argument hmem hname
      obtain ⟨j, hj, rfl⟩ := mem_iff_getElem.1 hmem
      obtain rfl := h.index_eq hlen (getElem?_eq_getElem hj) hpar hname
      exact absurd (List.getElem?_eq_none_iff.1 harg) (by omega)
    · have hmem : argument ∈ arguments.drop (positionalCount arguments) :=
        mem_iff_getElem?.2 ⟨i - positionalCount arguments, by
          rw [getElem?_drop, ← harg]
          congr 1
          omega⟩
      have hname : argument.name = some parameter.name := by
        rcases h i argument parameter harg hpar with hnone | hname
        · have hsome := named_of_resolveNamedArguments hres argument hmem
          rw [hnone] at hsome
          cases hsome
        · exact hname
      obtain ⟨hi, rfl⟩ := List.getElem?_eq_some_iff.1 harg
      refine find?_eq_some_iff_getElem.2 ⟨by simpa using hname, i, hi, rfl, fun j hj => ?_⟩
      simp only [Bool.not_eq_eq_eq_not, Bool.not_true, decide_eq_false_iff_not]
      intro hoth
      have hidx := h.index_eq hlen (getElem?_eq_getElem (by omega)) hpar hoth
      omega

theorem AcceptedCall.resolves :
    ∃ slots, resolveNamedArguments callee.parameters call.arguments = some slots := by
  obtain ⟨resolved, hres, -⟩ := bind_eq_some_iff.1 call.accepted
  obtain ⟨slots, hresolve, -⟩ := bind_eq_some_iff.1 hres
  exact ⟨slots, hresolve⟩

theorem AcceptedCall.writtenFor_eq (hpls : call.KeepsPlaces)
    (hgen : call.isInGeneric = true)
    (hslt : call.slots = call.arguments.map fun argument => some (.written argument)) {i : ℕ}
    {parameter : CallParameter ω} (hpar : callee.parameters[i]? = some parameter) :
    writtenFor call.arguments i parameter = call.arguments[i]? := by
  obtain ⟨slots, hres⟩ := call.resolves
  exact (hpls hgen).writtenFor_eq (by simpa [hslt] using call.count.2) hres hpar

theorem AcceptedCall.slotsFor (hpls : call.KeepsPlaces) :
    SlotsFor callee.parameters call.arguments call.slots := by
  rcases call.slots_cases with ⟨-, hres⟩ | ⟨hgen, hslt⟩
  · exact resolveNamedArguments_slotsFor callee.nodup hres
  · intro i parameter hpar
    rw [call.writtenFor_eq hpls hgen hslt hpar, hslt, getElem?_map]
    cases call.arguments[i]? <;> rfl

theorem expectedSlots_eq (hpls : call.KeepsPlaces) : expectedSlots callee call.arguments =
      (callee.parameters.map CallParameter.name).zip call.slots ++
        (callee.parameters.drop call.slots.length).map fun parameter =>
          (parameter.name, parameter.defaultValue.map .default) := by
  have hslt := call.slotsFor hpls
  have hcnt := call.count.2
  have hzip : ((callee.parameters.map CallParameter.name).zip call.slots).length =
      call.slots.length := by simp [hcnt]
  refine ext_getElem? fun i => ?_
  rcases hpar : callee.parameters[i]? with _ | parameter
  · have hge := List.getElem?_eq_none_iff.1 hpar
    rw [getElem?_eq_none (by simpa [expectedSlots]), getElem?_eq_none]
    rw [length_append, hzip, length_map, length_drop]
    omega
  · have hslot := hslt i parameter hpar
    rcases lt_or_ge i call.slots.length with hlt | hge
    · rw [getElem?_append_left (by omega)]
      have hlhs : (expectedSlots callee call.arguments)[i]? =
          some (parameter.name, call.slots[i]) := by
        simp [expectedSlots, hpar, hslot, hlt]
      rw [hlhs]
      exact (getElem?_zip_eq_some.2 ⟨by simp [hpar], getElem?_eq_getElem hlt⟩).symm
    · rw [getElem?_append_right (by omega), hzip]
      simp [expectedSlots, hpar, hslot, hge]

theorem givenCount_places
    (h : ∀ i parameter, callee.parameters[i]? = some parameter →
      writtenFor arguments i parameter = arguments[i]?)
    (hlen : arguments.length ≤ callee.parameters.length) :
    givenCount callee arguments = arguments.length := by
  rw [givenCount, mapIdx_writtenFor_places h hlen, filledSlots_append_none (by simp),
    filledSlots_map_some, length_map]

theorem AcceptedCall.length_slots (hpls : call.KeepsPlaces) :
    call.slots.length = givenCount callee call.arguments := by
  rcases call.slots_cases with ⟨-, hres⟩ | ⟨hgen, hslt⟩
  · unfold resolveNamedArguments at hres
    split at hres
    · rename_i hall
      have hslt := (some.inj hres).symm
      rw [givenCount_places (fun i parameter _ => writtenFor_positional (by simpa using hall) i _)
        (by simpa [hslt] using call.count.2), hslt, length_map]
    · dsimp only at hres
      split at hres
      · obtain ⟨placed, hfold, hslt⟩ := map_eq_some_iff.1 hres
        have hpos : positionalCount call.arguments ≤ call.arguments.length :=
          (List.takeWhile_prefix _).length_le
        have hplaced := (namedPlaced_nil callee.parameters call.arguments _).foldlM callee.nodup
          hpos hfold
        rw [← hslt, givenCount, mapIdx_writtenFor_named (by simpa using hplaced),
          length_zipWith, min_eq_right]
        rw [← hplaced.1]
        exact (List.rdropWhile_prefix ..).length_le
      · cases hres
  · rw [givenCount_places (fun i parameter => call.writtenFor_eq hpls hgen hslt)
      (by simpa [hslt] using call.count.2), hslt, length_map]

theorem AcceptedCall.defaultValue_isSome : ∀ parameter ∈ callee.parameters.drop call.slots.length,
      parameter.defaultValue.isSome = true := by
  have hrequired := call.count.1
  have hspl := take_append_drop call.slots.length callee.parameters
  have hpair := callee.required_first
  rw [← hspl, pairwise_append] at hpair
  rw [← hspl, countP_append] at hrequired
  intro parameter hpar
  by_contra hnone
  -- No parameter before one without a default has one, and these are already too many.
  have htake : (callee.parameters.take call.slots.length).countP
      (fun parameter => parameter.defaultValue.isNone) =
        (callee.parameters.take call.slots.length).length := by
    refine countP_eq_length.2 fun earlier hearly => ?_
    by_contra hsome
    exact hnone (hpair.2.2 earlier hearly parameter hpar
      (by simpa [Option.isSome_iff_ne_none] using hsome))
  have hpos : 0 < (callee.parameters.drop call.slots.length).countP
      (fun parameter => parameter.defaultValue.isNone) :=
    countP_pos_iff.2 ⟨parameter, hpar, by simpa using hnone⟩
  have hlen := length_pos_of_mem hpar
  rw [length_drop] at hlen
  rw [htake, length_take] at hrequired
  omega

/-! ### The emitted call in one pass -/

variable {V : Type}

/-- The names that C has for the arguments of a call. -/
def frameOf (isBlock : Bool) (earlier : List (Text × V)) : List (Text × Option V) :=
  if isBlock then earlier.map (Prod.map id some) else []

def initializerFrame (isBlock : Bool) (name : Text) (earlier : List (Text × V)) :
    List (Text × Option V) :=
  if isBlock then (name, none) :: earlier.map (Prod.map id some) else []

def passedValues (caller : CallerScope) (val : Valuation ω V) (isBlock : Bool) :
    List (Text × V) → List (Text × Option (ArgumentSlot ω)) → List (CallParameter ω) →
      Option (List V)
  | earlier, [], omitted =>
    omitted.mapM fun parameter =>
      (emitOmitted caller parameter).evaluate caller val (frameOf isBlock earlier)
  | _, (_, none) :: _, _ => none
  | earlier, (name, some slot) :: slots, omitted =>
    ((emitSlot caller slot).evaluate caller val (initializerFrame isBlock name earlier)).bind
      fun value =>
        (passedValues caller val isBlock ((name, value) :: earlier) slots omitted).map (value :: ·)

theorem passed_of_mem_none (caller : CallerScope) (val : Valuation ω V) (isBlock : Bool)
    (omitted : List (CallParameter ω)) {name : Text} :
    ∀ (slots : List (Text × Option (ArgumentSlot ω))) (earlier : List (Text × V)),
      (name, none) ∈ slots → passedValues caller val isBlock earlier slots omitted = none
  | (_, none) :: _, _, _ => rfl
  | (other, some slot) :: slots, earlier, h => by
    have hrest : (name, none) ∈ slots := by simpa using h
    simp [passedValues, passed_of_mem_none caller val isBlock omitted slots _ hrest]

theorem passed_inline (caller : CallerScope) (val : Valuation ω V)
    (omitted : List (CallParameter ω)) :
    ∀ (names : List Text) (slots : List (ArgumentSlot ω)) (earlier : List (Text × V)),
      slots.length ≤ names.length →
        passedValues caller val false earlier (names.zip (slots.map some)) omitted =
          (slots.map (fun slot => CActual.argument (emitSlot caller slot)) ++
            omitted.map (emitOmitted caller)).mapM (CActual.evaluate caller val [])
  | names, [], earlier, _ => by
    simp [passedValues, frameOf, Function.comp_def]
  | [], slot :: slots, _, h => by simp at h
  | name :: names, slot :: slots, earlier, h => by
    have ih := fun earlier => passed_inline caller val omitted names slots earlier
      (by simpa using h)
    simp only [map_cons, zip_cons_cons, passedValues, initializerFrame, ih,
      cons_append, mapM_cons, CActual.evaluate, map_eq_bind]
    rfl

theorem lookup_cons_of_ne {α : Type} {name other : Text} (h : name ≠ other) (value : α)
    (entries : List (Text × α)) :
    ((other, value) :: entries).lookup name = entries.lookup name := by
  have hbeq : (name == other) = false := beq_eq_false_iff_ne.2 h
  simp only [lookup_cons, hbeq]

theorem lookup_evaluateBindings (caller : CallerScope) (val : Valuation ω V) {name : Text} :
    ∀ (bindings : List (Text × CArgument ω)) (frame frame' : List (Text × Option V)),
      evaluateBindings caller val frame bindings = some frame' →
        name ∉ bindings.map Prod.fst → frame'.lookup name = frame.lookup name
  | [], frame, frame', h, _ => by
    cases h
    rfl
  | (other, argument) :: bindings, frame, frame', h, hname => by
    obtain ⟨value, -, hrest⟩ := bind_eq_some_iff.1 h
    have hne : name ≠ other ∧ name ∉ bindings.map Prod.fst := by simpa using hname
    rw [lookup_evaluateBindings caller val bindings _ _ hrest hne.2]
    exact lookup_cons_of_ne hne.1 _ _

theorem passed_block (caller : CallerScope) (val : Valuation ω V)
    (omitted : List (CallParameter ω)) :
    ∀ (names : List Text) (slots : List (ArgumentSlot ω)) (earlier : List (Text × V)),
      names.Nodup → slots.length ≤ names.length →
        passedValues caller val true earlier (names.zip (slots.map some)) omitted =
          (evaluateBindings caller val (frameOf true earlier)
            (names.zip (slots.map (emitSlot caller)))).bind fun frame =>
              ((names.take slots.length).map CActual.bound ++
                omitted.map (emitOmitted caller)).mapM (CActual.evaluate caller val frame)
  | names, [], earlier, _, _ => by
    simp [passedValues, evaluateBindings, Function.comp_def]
  | [], slot :: slots, _, _, h => by simp at h
  | name :: names, slot :: slots, earlier, hnd, h => by
    have hfr := nodup_cons.1 hnd
    have ih := fun value => passed_block caller val omitted names slots
      ((name, value) :: earlier) hfr.2 (by simpa using h)
    simp only [map_cons, zip_cons_cons, passedValues, ih, evaluateBindings,
      bind_assoc, initializerFrame, frameOf, if_true]
    refine Option.bind_congr fun value hval => ?_
    rw [map_eq_bind, bind_assoc]
    refine Option.bind_congr fun frame hfrm => ?_
    have hlook : frame.lookup name = some (some value) := by
      rw [lookup_evaluateBindings caller val _ _ _ hfrm]
      · simp
      · intro hmem
        obtain ⟨⟨_, argument⟩, hbinding, rfl⟩ := mem_map.1 hmem
        exact hfr.1 (of_mem_zip hbinding).1
    have hbound : CActual.evaluate caller val frame (.bound name) = some value := by
      simp [CActual.evaluate, hlook]
    simp only [length_cons, take_succ_cons, map_cons, cons_append, mapM_cons, hbound]
    rfl

theorem mapM_id_eq_some {α : Type} : ∀ {slots : List (Option α)} {values : List α},
    slots.mapM id = some values → slots = values.map some
  | [], _, h => by
    cases h
    rfl
  | none :: _, _, h => by simp at h
  | some slot :: slots, _, h => by
    rw [mapM_cons] at h
    obtain ⟨first, hfst, h⟩ := bind_eq_some_iff.1 h
    obtain ⟨values, hvals, h⟩ := bind_eq_some_iff.1 h
    cases hfst
    cases h
    rw [mapM_id_eq_some hvals, map_cons]

theorem mapM_id_eq_none {α : Type} : ∀ {slots : List (Option α)},
    slots.mapM id = none → none ∈ slots
  | none :: _, _ => by simp
  | some slot :: slots, h => by
    rcases hrest : slots.mapM id with _ | values
    · exact mem_cons_of_mem _ (mapM_id_eq_none hrest)
    · rw [mapM_cons, hrest] at h
      cases h

theorem emitCall_evaluate (isDirect : Bool) {callee : Callee ω} {caller : CallerScope}
    (call : AcceptedCall callee caller) (val : Valuation ω V) :
    (emitCall isDirect caller callee call.slots).bind (CCall.evaluate caller val) =
      passedValues caller val (bindsArguments isDirect callee call.slots.length) []
        ((callee.parameters.map CallParameter.name).zip call.slots)
        (callee.parameters.drop call.slots.length) := by
  have hlen : call.slots.length ≤ (callee.parameters.map CallParameter.name).length := by
    simpa using call.count.2
  unfold emitCall
  rcases hslt : call.slots.mapM id with _ | slots
  · obtain ⟨i, hi, hnone⟩ := mem_iff_getElem.1 (mapM_id_eq_none hslt)
    have hname : ((callee.parameters.map CallParameter.name)[i], none) ∈
        (callee.parameters.map CallParameter.name).zip call.slots :=
      mem_of_getElem? (i := i) (getElem?_zip_eq_some.2
        ⟨getElem?_eq_getElem _, by rw [getElem?_eq_getElem hi, hnone]⟩)
    rw [passed_of_mem_none caller val _ _ _ _ hname]
    rfl
  · have hmap := mapM_id_eq_some hslt
    rw [hmap, length_map] at hlen ⊢
    rw [map_some, bind_some]
    dsimp only
    split
    · rename_i hblock
      rw [hblock, passed_block caller val _ _ _ _ callee.nodup hlen]
      simp [CCall.evaluate, frameOf]
    · rename_i hinline
      rw [Bool.not_eq_true] at hinline
      rw [hinline, passed_inline caller val _ _ _ _ hlen]
      simp [CCall.evaluate, evaluateBindings]

/-! ### Agreement -/

/-- There is a value, and it is the same. -/
def Agree {α : Type} (x y : Option α) : Prop := ∃ value, x = some value ∧ y = some value

theorem agree_cons_iff {α : Type} {x y : Option α} {f g : α → Option (List α)} :
    Agree (x.bind fun value => (f value).map (value :: ·))
        (y.bind fun value => (g value).map (value :: ·)) ↔
      ∃ value, x = some value ∧ y = some value ∧ Agree (f value) (g value) := by
  constructor
  · rintro ⟨values, hx, hy⟩
    obtain ⟨value, rfl, hf⟩ := bind_eq_some_iff.1 hx
    obtain ⟨other, rfl, hg⟩ := bind_eq_some_iff.1 hy
    obtain ⟨rest, hrest, rfl⟩ := map_eq_some_iff.1 hf
    obtain ⟨rest', hrest', hcons⟩ := map_eq_some_iff.1 hg
    cases hcons
    exact ⟨value, rfl, rfl, rest, hrest, hrest'⟩
  · rintro ⟨value, rfl, rfl, rest, hf, hg⟩
    exact ⟨value :: rest, by simp [hf], by simp [hg]⟩

variable {α β : Type}

theorem mapM_cons' (f : α → Option β) (x : α) (xs : List α) :
    (x :: xs).mapM f = (f x).bind fun value => (xs.mapM f).map (value :: ·) := by
  simp [mapM_cons, map_eq_bind, Function.comp_def]

theorem agree_mapM_iff {f g : α → Option β} : ∀ {xs : List α},
    Agree (xs.mapM f) (xs.mapM g) ↔ ∀ x ∈ xs, Agree (f x) (g x)
  | [] => by simp [Agree]
  | x :: xs => by
    rw [mapM_cons', mapM_cons', agree_cons_iff (f := fun _ => xs.mapM f) (g := fun _ => xs.mapM g),
      forall_mem_cons, ← agree_mapM_iff]
    exact ⟨fun ⟨value, hf, hg, hrest⟩ => ⟨⟨value, hf, hg⟩, hrest⟩,
      fun ⟨⟨value, hf, hg⟩, hrest⟩ => ⟨value, hf, hg, hrest⟩⟩

theorem Agree.map {x y : Option α} (h : Agree x y) (f : α → β) : Agree (x.map f) (y.map f) := by
  obtain ⟨value, rfl, rfl⟩ := h
  exact ⟨f value, rfl, rfl⟩

theorem agree_map_iff {x y : Option α} {f : α → β} (hf : Function.Injective f) :
    Agree (x.map f) (y.map f) ↔ Agree x y := by
  constructor
  · rintro ⟨value, hx, hy⟩
    obtain ⟨v, rfl, rfl⟩ := map_eq_some_iff.1 hx
    obtain ⟨w, rfl, hw⟩ := map_eq_some_iff.1 hy
    exact ⟨v, rfl, by rw [hf hw]⟩
  · exact fun h => h.map f

/-! ### What the names in C stand for -/

/-- The variables of C are those of the bound parameters, and the hidden names that are not bound
have no value. -/
structure FrameAgrees (bound hidden : List Text) (frame : List (Text × Option V))
    (earlier : List (Text × V)) : Prop where
  of_bound : ∀ name ∈ bound, ∃ value,
    frame.lookup name = some (some value) ∧ earlier.lookup name = some value
  of_hidden : ∀ name ∈ hidden, name ∉ bound → frame.lookup name = some none
  of_free : ∀ name ∉ hidden, frame.lookup name = none

theorem lookup_map_some (earlier : List (Text × V)) (name : Text) :
    (earlier.map (Prod.map id some)).lookup name = (earlier.lookup name).map some := by
  induction earlier with
  | nil => rfl
  | cons entry earlier ih =>
    obtain ⟨other, value⟩ := entry
    simp only [map_cons, Prod.map_apply, id]
    rcases eq_or_ne name other with rfl | hne
    · simp
    · rw [lookup_cons_of_ne hne, lookup_cons_of_ne hne, ih]

theorem exists_lookup_of_mem {earlier : List (Text × V)} {name : Text}
    (h : name ∈ earlier.map Prod.fst) : ∃ value, earlier.lookup name = some value := by
  rw [← Option.isSome_iff_exists, lookup_isSome_iff]
  obtain ⟨entry, hent, rfl⟩ := mem_map.1 h
  exact ⟨entry, hent, by simp⟩

theorem lookup_eq_none_of_notMem {earlier : List (Text × V)} {name : Text}
    (h : name ∉ earlier.map Prod.fst) : earlier.lookup name = none := by
  rw [lookup_eq_none_iff]
  intro entry hent
  have hne : name ≠ entry.1 := by
    rintro rfl
    exact h (mem_map_of_mem hent)
  simpa using hne

variable (isBlock : Bool)

theorem frameAgrees_frameOf (earlier : List (Text × V)) :
    FrameAgrees (if isBlock then earlier.map Prod.fst else [])
      (if isBlock then earlier.map Prod.fst else []) (frameOf isBlock earlier) earlier := by
  cases isBlock
  · exact ⟨by simp, by simp, by simp [frameOf]⟩
  · refine ⟨fun name hname => ?_, fun name hname hnot => absurd hname hnot, fun name hname => ?_⟩
    · obtain ⟨value, hval⟩ := exists_lookup_of_mem hname
      exact ⟨value, by simp [frameOf, lookup_map_some, hval], hval⟩
    · simp only [if_true] at hname
      simp [frameOf, lookup_map_some, lookup_eq_none_of_notMem hname]

theorem frameAgrees_initializerFrame {name : Text} {earlier : List (Text × V)}
    (hname : name ∉ earlier.map Prod.fst) :
    FrameAgrees (if isBlock then earlier.map Prod.fst else [])
      (if isBlock then name :: earlier.map Prod.fst else [])
      (initializerFrame isBlock name earlier) earlier := by
  cases isBlock
  · exact ⟨by simp, by simp, by simp [initializerFrame]⟩
  · have h := frameAgrees_frameOf true earlier
    simp only [initializerFrame, if_true] at h ⊢
    refine ⟨fun other hoth => ?_, fun other hoth hnot => ?_, fun other hoth => ?_⟩
    · rw [lookup_cons_of_ne (by rintro rfl; exact hname hoth)]
      exact h.of_bound other hoth
    · obtain rfl : other = name := by simpa [hnot] using hoth
      simp
    · obtain ⟨hne, hnot⟩ : other ≠ name ∧ other ∉ earlier.map Prod.fst := by
        simpa using hoth
      rw [lookup_cons_of_ne hne]
      exact h.of_free other hnot

theorem FrameAgrees.cons {bound hidden : List Text} {frame : List (Text × Option V)}
    {earlier : List (Text × V)} (h : FrameAgrees bound hidden frame earlier) {name : Text}
    (hname : name ∉ bound) (value : V) :
    FrameAgrees bound hidden frame ((name, value) :: earlier) := by
  refine ⟨fun other hoth => ?_, h.of_hidden, h.of_free⟩
  rw [lookup_cons_of_ne (by rintro rfl; exact hname hoth)]
  exact h.of_bound other hoth

/-! ### Names and expressions that keep their meaning -/

section

variable {caller : CallerScope} {val : Valuation ω V} {bound hidden : List Text}
  {frame : List (Text × Option V)} {earlier : List (Text × V)}

theorem agree_written (hfrm : FrameAgrees bound hidden frame earlier) {use : NameUse}
    (hsees : caller.Sees use) (hfree : use.cName ∉ hidden) : Agree (some (use.callerValue val))
      (readName caller val frame (emitUse caller (use.inFile caller))) := by
  have hnone := hfrm.of_free _ hfree
  refine ⟨use.callerValue val, rfl, ?_⟩
  cases use with
  | ofVariable name =>
    change frame.lookup name = none at hnone
    simp only [NameUse.inFile, emitUse]
    split
    · simp [readName, hnone, NameUse.callerValue]
    · have hlocal : name ∈ caller.locals := hsees
      simp [readName, hnone, hlocal, NameUse.callerValue]
  | ofDeclaration written cName =>
    change frame.lookup cName = none at hnone
    obtain ⟨rfl, hlocal, href⟩ := hsees
    simp [NameUse.inFile, emitUse, href, readName, hnone, hlocal, NameUse.callerValue]

theorem agree_default (hfrm : FrameAgrees bound hidden frame earlier) {use : NameUse}
    (hmeans : caller.MeansSame bound hidden use) :
    Agree (use.calleeValue val earlier) (readName caller val frame (emitUse caller use)) := by
  cases use with
  | ofVariable name =>
    obtain ⟨value, hlook, hearly⟩ := hfrm.of_bound name hmeans.1
    exact ⟨value, hearly, by simp [emitUse, hmeans.2, readName, hlook]⟩
  | ofDeclaration written cName =>
    obtain ⟨hfree, hlocal, href⟩ := hmeans
    refine ⟨val.globals cName, rfl, ?_⟩
    simp [emitUse, href, readName, hfrm.of_free _ hfree, hlocal]

theorem NameUse.inFile_of_resolvesSame {use : NameUse} (h : caller.ResolvesSame use) :
    use.inFile caller = use := by
  cases use with
  | ofVariable name => rfl
  | ofDeclaration written cName => exact congrArg _ h

theorem evaluate_expression (node : ω) (uses : List NameUse) (emit : NameUse → CRead) :
    (CArgument.expression node (uses.map emit)).evaluate caller val frame =
      (uses.mapM fun use => readName caller val frame (emit use)).map (val.operate node) := by
  simp [CArgument.evaluate, Function.comp_def]

theorem evaluate_temporary (node : ω) (uses : List NameUse) (emit : NameUse → CRead) :
    (CArgument.temporary node (uses.map emit)).evaluate caller val frame =
      (CArgument.expression node (uses.map emit)).evaluate caller val [] := rfl

theorem value_written (argument : WrittenArgument ω) :
    (ArgumentSlot.written argument).value val earlier =
      (argument.value.uses.mapM fun use => some (use.callerValue val)).map
        (val.operate argument.value.node) := by
  have hpure : argument.value.uses.mapM (fun use => some (use.callerValue val)) =
      some (argument.value.uses.map (NameUse.callerValue val)) := mapM_pure
  rw [hpure]
  rfl

theorem frameAgrees_nil (earlier : List (Text × V)) : FrameAgrees [] [] [] earlier :=
  ⟨by simp, by simp, by simp⟩

variable (val) in
theorem agree_slot (hfrm : FrameAgrees bound hidden frame earlier) {slot : ArgumentSlot ω}
    (hsees : ∀ argument, slot = .written argument → ∀ use ∈ argument.value.uses, caller.Sees use)
    (hkp : slot.KeepsMeaning caller bound hidden) :
    Agree (slot.value val earlier) ((emitSlot caller slot).evaluate caller val frame) := by
  cases slot with
  | written argument =>
    have hsees := hsees argument rfl
    rw [value_written, emitSlot]
    split
    · rw [evaluate_temporary, evaluate_expression]
      exact (agree_mapM_iff.2 fun use huse =>
        agree_written (frameAgrees_nil earlier) (hsees use huse) (not_mem_nil)).map _
    · rename_i hbound
      rw [evaluate_expression]
      exact (agree_mapM_iff.2 fun use huse =>
        agree_written hfrm (hsees use huse) (hkp (by simpa using hbound) use huse)).map _
  | default value =>
    rw [emitSlot, evaluate_expression]
    refine (agree_mapM_iff.2 fun use huse => ?_).map _
    obtain ⟨hmeans, hres⟩ := hkp use huse
    rw [NameUse.inFile_of_resolvesSame hres]
    exact agree_default hfrm hmeans

theorem agree_omitted (hfrm : FrameAgrees bound bound frame earlier)
    {omitted : List (CallParameter ω)}
    (hdef : ∀ parameter ∈ omitted, parameter.defaultValue.isSome = true)
    (hname : ∀ parameter ∈ omitted, parameter.name ∉ bound)
    (hkp : ∀ parameter ∈ omitted, ∀ value ∈ parameter.defaultValue, ∀ use ∈ value.uses,
      caller.MeansSame bound bound use) : Agree
      (expectedValues val earlier (omitted.map fun parameter =>
        (parameter.name, parameter.defaultValue.map .default)))
      (omitted.mapM fun parameter => (emitOmitted caller parameter).evaluate caller val frame) := by
  induction omitted generalizing earlier with
  | nil => exact ⟨[], rfl, rfl⟩
  | cons parameter omitted ih =>
    obtain ⟨value, hval⟩ := Option.isSome_iff_exists.1 (hdef parameter mem_cons_self)
    have hfst : Agree ((ArgumentSlot.default value).value val earlier)
        ((emitOmitted caller parameter).evaluate caller val frame) := by
      rw [emitOmitted, hval]
      dsimp only [CActual.evaluate]
      rw [evaluate_expression]
      exact (agree_mapM_iff.2 fun use huse => agree_default hfrm
        (hkp parameter mem_cons_self value hval use huse)).map _
    obtain ⟨v, hexpect, hpassed⟩ := hfst
    simp only [map_cons, expectedValues, hval, map_some, bind_some, mapM_cons']
    rw [agree_cons_iff]
    refine ⟨v, hexpect, hpassed, ih (hfrm.cons (hname parameter mem_cons_self) v) ?_ ?_ ?_⟩
    · exact fun p hp => hdef p (mem_cons_of_mem _ hp)
    · exact fun p hp => hname p (mem_cons_of_mem _ hp)
    · exact fun p hp => hkp p (mem_cons_of_mem _ hp)

end

/-! ### Names and expressions that do not -/

/-- What a value is made of, when nothing is known of names and nodes. -/
inductive CallTerm (ω : Type)
  | localName (name : Text)
  | globalName (cName : Text)
  | node (node : ω) (operands : List (CallTerm ω))

/-- Values that tell everything that they are made of. -/
def freeValuation (ω : Type) : Valuation ω (CallTerm ω) where
  operate := .node
  locals := .localName
  globals := .globalName

theorem freeValuation_operate_injective (node : ω) :
    Function.Injective ((freeValuation ω).operate node) := by
  intro operands operands' h
  cases h
  rfl

/-- The values of parameters are those of expressions. -/
def AreNodes (earlier : List (Text × CallTerm ω)) : Prop :=
  ∀ name value, earlier.lookup name = some value → ∃ node operands, value = .node node operands

theorem AreNodes.cons {earlier : List (Text × CallTerm ω)} (h : AreNodes earlier)
    (other : Text) {value : CallTerm ω} (hval : ∃ node operands, value = .node node operands) :
    AreNodes ((other, value) :: earlier) := by
  intro name v hlook
  rcases eq_or_ne name other with rfl | hne
  · rw [lookup_cons_self] at hlook
    cases hlook
    exact hval
  · rw [lookup_cons_of_ne hne] at hlook
    exact h name v hlook

/-- The node of what is passed. -/
def ArgumentSlot.node : ArgumentSlot ω → ω
  | written argument => argument.value.node
  | default value => value.node

theorem ArgumentSlot.value_node {slot : ArgumentSlot ω} {earlier : List (Text × CallTerm ω)}
    {value : CallTerm ω} (h : slot.value (freeValuation ω) earlier = some value) :
    ∃ operands, value = .node slot.node operands := by
  cases slot with
  | written argument =>
    cases h
    exact ⟨_, rfl⟩
  | default e =>
    obtain ⟨operands, -, rfl⟩ := map_eq_some_iff.1 h
    exact ⟨_, rfl⟩

section

variable {caller : CallerScope} {bound hidden : List Text}
  {frame : List (Text × Option (CallTerm ω))} {earlier : List (Text × CallTerm ω)}

theorem FrameAgrees.lookup_hidden (hfrm : FrameAgrees bound hidden frame earlier)
    (hnodes : AreNodes earlier) {name : Text} (hname : name ∈ hidden) :
    frame.lookup name = some none ∨
      ∃ node operands, frame.lookup name = some (some (.node node operands)) := by
  rcases em (name ∈ bound) with hbound | hbound
  · obtain ⟨value, hlook, hearly⟩ := hfrm.of_bound name hbound
    obtain ⟨node, operands, rfl⟩ := hnodes name value hearly
    exact .inr ⟨node, operands, hlook⟩
  · exact .inl (hfrm.of_hidden name hname hbound)

theorem notMem_of_readName_localName (hfrm : FrameAgrees bound hidden frame earlier)
    (hnodes : AreNodes earlier) {read : CRead} {name : Text}
    (hread : read = .plain name ∨ read = .deref name)
    (h : readName caller (freeValuation ω) frame read = some (.localName name)) :
    name ∉ hidden := by
  intro hname
  rcases hfrm.lookup_hidden hnodes hname with hlook | ⟨node, operands, hlook⟩ <;>
    rcases hread with rfl | rfl <;> simp [readName, hlook] at h

theorem eq_of_readName_deref {name : Text} {value : CallTerm ω}
    (h : readName caller (freeValuation ω) frame (.deref name) = some value) :
    value = .localName name := by
  rcases hlook : frame.lookup name with _ | hidden
  · simp only [readName, hlook] at h
    exact (some.inj h).symm
  · simp [readName, hlook] at h

theorem of_readName_globalName (hfrm : FrameAgrees bound hidden frame earlier)
    (hnodes : AreNodes earlier) {written cName cName' : Text}
    (h : readName caller (freeValuation ω) frame (emitUse caller (.ofDeclaration written cName')) =
      some (.globalName cName)) :
    cName' = cName ∧ cName ∉ hidden ∧ cName ∉ caller.locals ∧ written ∉ caller.references := by
  simp only [emitUse] at h
  split at h
  · cases eq_of_readName_deref h
  · rename_i href
    rcases em (cName' ∈ hidden) with hname | hname
    · rcases hfrm.lookup_hidden hnodes hname with hlook | ⟨node, operands, hlook⟩ <;>
        simp [readName, hlook] at h
    · simp only [readName, hfrm.of_free _ hname] at h
      split at h
      · cases h
      · rename_i hlocal
        cases h
        exact ⟨rfl, hname, hlocal, href⟩

theorem of_readName_parameter (hfrm : FrameAgrees bound hidden frame earlier)
    (hnodes : AreNodes earlier) {name : Text} {value : CallTerm ω}
    (hval : earlier.lookup name = some value)
    (h : readName caller (freeValuation ω) frame (emitUse caller (.ofVariable name)) = some value) :
    name ∈ bound ∧ name ∉ caller.references := by
  obtain ⟨node, operands, rfl⟩ := hnodes name value hval
  simp only [emitUse] at h
  split at h
  · cases eq_of_readName_deref h
  · rename_i href
    refine ⟨?_, href⟩
    by_contra hbound
    rcases em (name ∈ hidden) with hname | hname
    · simp [readName, hfrm.of_hidden name hname hbound] at h
    · simp only [readName, hfrm.of_free name hname] at h
      split at h <;> cases h

theorem notMem_of_agree_written (hfrm : FrameAgrees bound hidden frame earlier)
    (hnodes : AreNodes earlier) {use : NameUse} (hsees : caller.Sees use)
    (h : Agree (some (use.callerValue (freeValuation ω)))
      (readName caller (freeValuation ω) frame (emitUse caller (use.inFile caller)))) :
    use.cName ∉ hidden := by
  obtain ⟨value, hval, hread⟩ := h
  cases use with
  | ofVariable name =>
    cases hval
    refine notMem_of_readName_localName hfrm hnodes ?_ hread
    simp only [NameUse.inFile, emitUse]
    split
    · exact .inr rfl
    · exact .inl rfl
  | ofDeclaration written cName =>
    cases hval
    exact (of_readName_globalName hfrm hnodes hread).2.1

theorem meansSame_of_agree (hfrm : FrameAgrees bound hidden frame earlier)
    (hnodes : AreNodes earlier) {use use' : NameUse}
    (huse : use' = use ∨ use' = use.inFile caller)
    (h : Agree (use.calleeValue (freeValuation ω) earlier)
      (readName caller (freeValuation ω) frame (emitUse caller use'))) :
    caller.MeansSame bound hidden use ∧ (use' = use.inFile caller → caller.ResolvesSame use) := by
  obtain ⟨value, hval, hread⟩ := h
  cases use with
  | ofVariable name =>
    obtain rfl : use' = .ofVariable name := by rcases huse with rfl | rfl <;> rfl
    exact ⟨of_readName_parameter hfrm hnodes hval hread, fun _ => trivial⟩
  | ofDeclaration written cName =>
    cases hval
    rcases huse with rfl | rfl
    · refine ⟨(of_readName_globalName hfrm hnodes hread).2, fun hfile => ?_⟩
      exact (NameUse.ofDeclaration.inj hfile).2.symm
    · obtain ⟨hres, hmeans⟩ := of_readName_globalName hfrm hnodes hread
      exact ⟨hmeans, fun _ => hres⟩

theorem keepsMeaning_of_agree (hfrm : FrameAgrees bound hidden frame earlier)
    (hnodes : AreNodes earlier) {slot : ArgumentSlot ω}
    (hsees : ∀ argument, slot = .written argument → ∀ use ∈ argument.value.uses, caller.Sees use)
    (h : Agree (slot.value (freeValuation ω) earlier)
      ((emitSlot caller slot).evaluate caller (freeValuation ω) frame)) :
    slot.KeepsMeaning caller bound hidden := by
  cases slot with
  | written argument =>
    intro hbound use huse
    rw [value_written, emitSlot] at h
    rw [if_neg (by simp [hbound]), evaluate_expression,
      agree_map_iff (freeValuation_operate_injective _), agree_mapM_iff] at h
    exact notMem_of_agree_written hfrm hnodes (hsees argument rfl use huse) (h use huse)
  | default value =>
    intro use huse
    rw [emitSlot, evaluate_expression, ArgumentSlot.value,
      agree_map_iff (freeValuation_operate_injective _), agree_mapM_iff] at h
    obtain ⟨hmeans, hres⟩ := meansSame_of_agree hfrm hnodes (.inr rfl) (h use huse)
    exact ⟨hmeans, hres rfl⟩

theorem meansSame_of_agree_omitted (hfrm : FrameAgrees bound bound frame earlier)
    (hnodes : AreNodes earlier) {omitted : List (CallParameter ω)}
    (hname : ∀ parameter ∈ omitted, parameter.name ∉ bound)
    (h : Agree
      (expectedValues (freeValuation ω) earlier (omitted.map fun parameter =>
        (parameter.name, parameter.defaultValue.map .default)))
      (omitted.mapM fun parameter =>
        (emitOmitted caller parameter).evaluate caller (freeValuation ω) frame)) :
    ∀ parameter ∈ omitted, ∀ value ∈ parameter.defaultValue, ∀ use ∈ value.uses,
      caller.MeansSame bound bound use := by
  induction omitted generalizing earlier with
  | nil => simp
  | cons parameter omitted ih =>
    simp only [map_cons, expectedValues, mapM_cons'] at h
    obtain ⟨v, hexpect, hpassed, hrest⟩ := agree_cons_iff.1 h
    obtain ⟨slot, hslot, hval⟩ := bind_eq_some_iff.1 hexpect
    refine forall_mem_cons.2 ⟨fun value hdef use huse => ?_, ?_⟩
    · rw [hdef] at hslot
      cases hslot
      rw [emitOmitted, hdef] at hpassed
      dsimp only [CActual.evaluate] at hpassed
      have hagree : Agree ((ArgumentSlot.default value).value (freeValuation ω) earlier) _ :=
        ⟨v, hval, hpassed⟩
      rw [evaluate_expression, ArgumentSlot.value,
        agree_map_iff (freeValuation_operate_injective _), agree_mapM_iff] at hagree
      exact (meansSame_of_agree hfrm hnodes (.inl rfl) (hagree use huse)).1
    · exact ih (hfrm.cons (hname parameter mem_cons_self) v)
        (hnodes.cons parameter.name ⟨_, ArgumentSlot.value_node hval⟩)
        (fun p hp => hname p (mem_cons_of_mem _ hp)) hrest

end

/-! ### All arguments of a call -/

/-- The written arguments among the slots are written in the scope of the call. -/
def SlotsSee (caller : CallerScope) (slots : List (Text × Option (ArgumentSlot ω))) : Prop :=
  ∀ entry ∈ slots, ∀ argument, entry.2 = some (.written argument) →
    ∀ use ∈ argument.value.uses, caller.Sees use

theorem omitted_notMem {isBlock : Bool} {bound : List Text} {omitted : List (CallParameter ω)}
    (hnd : (bound ++ omitted.map CallParameter.name).Nodup) :
    ∀ parameter ∈ omitted, parameter.name ∉ if isBlock then bound else [] := by
  intro parameter hpar hmem
  cases isBlock
  · cases hmem
  · exact (disjoint_of_nodup_append hnd) hmem (mem_map_of_mem hpar)

theorem agree_of_slotsKeepMeaning (val : Valuation ω V) (isBlock : Bool)
    {omitted : List (CallParameter ω)}
    (hdef : ∀ parameter ∈ omitted, parameter.defaultValue.isSome = true) :
    ∀ (slots : List (Text × Option (ArgumentSlot ω))) (earlier : List (Text × V)),
      (earlier.map Prod.fst ++ (slots.map Prod.fst ++ omitted.map CallParameter.name)).Nodup →
        SlotsSee caller slots →
          slotsKeepMeaning caller isBlock (earlier.map Prod.fst) slots omitted → Agree
              (expectedValues val earlier (slots ++ omitted.map fun parameter =>
                (parameter.name, parameter.defaultValue.map .default)))
              (passedValues caller val isBlock earlier slots omitted)
  | [], earlier, hnd, _, hkp =>
    agree_omitted (frameAgrees_frameOf isBlock earlier) hdef (omitted_notMem hnd) hkp
  | (_, none) :: _, _, _, _, hkp => hkp.elim
  | (name, some slot) :: slots, earlier, hnd, hsees, hkp => by
    have hmid := nodup_middle.1 hnd
    have hname : name ∉ earlier.map Prod.fst := fun hmem =>
      (nodup_cons.1 hmid).1 (mem_append_left _ hmem)
    obtain ⟨v, hexpect, hpassed⟩ := agree_slot val
      (frameAgrees_initializerFrame isBlock hname)
      (fun argument hslot => hsees _ mem_cons_self argument (congrArg some hslot)) hkp.1
    simp only [cons_append, expectedValues, passedValues, bind_some]
    rw [agree_cons_iff]
    exact ⟨v, hexpect, hpassed, agree_of_slotsKeepMeaning val isBlock hdef slots
      ((name, v) :: earlier) hmid (fun entry hent => hsees entry (mem_cons_of_mem _ hent))
      hkp.2⟩

theorem slotsKeepMeaning_of_agree
    {omitted : List (CallParameter ω)} :
    ∀ (slots : List (Text × Option (ArgumentSlot ω))) (earlier : List (Text × CallTerm ω)),
      (earlier.map Prod.fst ++ (slots.map Prod.fst ++ omitted.map CallParameter.name)).Nodup →
        SlotsSee caller slots → AreNodes earlier → Agree
            (expectedValues (freeValuation ω) earlier (slots ++ omitted.map fun parameter =>
              (parameter.name, parameter.defaultValue.map .default)))
            (passedValues caller (freeValuation ω) isBlock earlier slots omitted) →
            slotsKeepMeaning caller isBlock (earlier.map Prod.fst) slots omitted
  | [], earlier, hnd, _, hnodes, h =>
    meansSame_of_agree_omitted (frameAgrees_frameOf isBlock earlier) hnodes
      (omitted_notMem hnd) h
  | (_, none) :: _, _, _, _, _, ⟨_, _, hnone⟩ => by cases hnone
  | (name, some slot) :: slots, earlier, hnd, hsees, hnodes, h => by
    have hmid := nodup_middle.1 hnd
    have hname : name ∉ earlier.map Prod.fst := fun hmem =>
      (nodup_cons.1 hmid).1 (mem_append_left _ hmem)
    obtain ⟨v, hexpect, hpassed, hrest⟩ := agree_cons_iff.1 h
    refine ⟨keepsMeaning_of_agree (frameAgrees_initializerFrame isBlock hname) hnodes
      (fun argument hslot => hsees _ mem_cons_self argument (congrArg some hslot))
      ⟨v, hexpect, hpassed⟩, ?_⟩
    exact slotsKeepMeaning_of_agree slots ((name, v) :: earlier) hmid
      (fun entry hent => hsees entry (mem_cons_of_mem _ hent))
      (hnodes.cons name ⟨_, ArgumentSlot.value_node hexpect⟩) hrest

theorem AcceptedCall.written_mem (hpls : call.KeepsPlaces) {argument : WrittenArgument ω}
    (h : some (.written argument) ∈ call.slots) : argument ∈ call.arguments := by
  obtain ⟨i, hi, hslot⟩ := mem_iff_getElem.1 h
  have hpar := getElem?_eq_getElem (l := callee.parameters) (i := i)
    (lt_of_lt_of_le hi call.count.2)
  have hgap := call.slotsFor hpls i _ hpar
  rw [getElem?_eq_getElem hi, hslot, Option.getD_some] at hgap
  unfold fillGap at hgap
  split at hgap
  · rename_i found hfnd
    cases hgap
    exact mem_of_writtenFor hfnd
  · obtain ⟨value, -, hval⟩ := map_eq_some_iff.1 hgap
    cases hval

theorem AcceptedCall.slotsSee (hpls : call.KeepsPlaces) (names : List Text) :
    SlotsSee caller (names.zip call.slots) := by
  rintro ⟨name, slot⟩ hent argument rfl
  exact call.sees argument (call.written_mem hpls (of_mem_zip hent).2)

theorem AcceptedCall.nodup_names :
    (((callee.parameters.map CallParameter.name).zip call.slots).map Prod.fst ++
      (callee.parameters.drop call.slots.length).map CallParameter.name).Nodup := by
  have hlen : call.slots.length ≤ (callee.parameters.map CallParameter.name).length := by
    simpa using call.count.2
  rw [zip_eq_zip_take_min, min_eq_right hlen, take_length,
    map_fst_zip (length_take_le _ _), map_drop, take_append_drop]
  exact callee.nodup

theorem keepsMeaning_iff (isDirect : Bool) {callee : Callee ω} {caller : CallerScope}
    (call : AcceptedCall callee caller) : KeepsMeaning isDirect call ↔ call.KeepsPlaces ∧
      slotsKeepMeaning caller (bindsArguments isDirect callee call.slots.length) []
        ((callee.parameters.map CallParameter.name).zip call.slots)
        (callee.parameters.drop call.slots.length) := by
  have hzip : ((callee.parameters.map CallParameter.name).zip call.slots).length =
      call.slots.length := by simp [call.count.2]
  refine and_congr_right fun hpls => ?_
  rw [← call.length_slots hpls, expectedSlots_eq call hpls, take_left' hzip]

/-! ### The places of the arguments -/

theorem evaluate_emitSlot_node {slot : ArgumentSlot ω}
    {frame : List (Text × Option (CallTerm ω))} {value : CallTerm ω}
    (h : (emitSlot caller slot).evaluate caller (freeValuation ω) frame = some value) :
    ∃ operands, value = .node slot.node operands := by
  cases slot with
  | written argument =>
    rw [emitSlot] at h
    split at h <;>
      (obtain ⟨operands, -, rfl⟩ := map_eq_some_iff.1 h
       exact ⟨_, rfl⟩)
  | default e =>
    obtain ⟨operands, -, rfl⟩ := map_eq_some_iff.1 h
    exact ⟨_, rfl⟩

theorem expectedValues_node : ∀ {slots : List (Text × Option (ArgumentSlot ω))}
    {earlier : List (Text × CallTerm ω)} {values : List (CallTerm ω)} {i : ℕ} {name : Text}
    {slot : Option (ArgumentSlot ω)},
    expectedValues (freeValuation ω) earlier slots = some values → slots[i]? = some (name, slot) →
      ∃ given operands, slot = some given ∧ values[i]? = some (.node given.node operands)
  | (first, slot) :: slots, earlier, values, i, name, slot', h, hslot => by
    obtain ⟨value, hval, hmap⟩ := bind_eq_some_iff.1 h
    obtain ⟨rest, hrest, rfl⟩ := map_eq_some_iff.1 hmap
    cases i with
    | zero =>
      cases hslot
      obtain ⟨given, rfl, hgiven⟩ := bind_eq_some_iff.1 hval
      obtain ⟨operands, rfl⟩ := ArgumentSlot.value_node hgiven
      exact ⟨given, operands, rfl, rfl⟩
    | succ i =>
      have ih := expectedValues_node (i := i) hrest (by simpa using hslot)
      simpa using ih

theorem passed_node {isBlock : Bool}
    {omitted : List (CallParameter ω)} : ∀ {slots : List (Text × Option (ArgumentSlot ω))}
    {earlier : List (Text × CallTerm ω)} {values : List (CallTerm ω)} {i : ℕ} {name : Text}
    {slot : ArgumentSlot ω},
    passedValues caller (freeValuation ω) isBlock earlier slots omitted = some values →
      slots[i]? = some (name, some slot) → ∃ operands, values[i]? = some (.node slot.node operands)
  | (first, some slot) :: slots, earlier, values, i, name, slot', h, hslot => by
    obtain ⟨value, hval, hmap⟩ := bind_eq_some_iff.1 h
    obtain ⟨rest, hrest, rfl⟩ := map_eq_some_iff.1 hmap
    cases i with
    | zero =>
      cases hslot
      obtain ⟨operands, rfl⟩ := evaluate_emitSlot_node hval
      exact ⟨operands, rfl⟩
    | succ i =>
      have ih := passed_node (i := i) hrest (by simpa using hslot)
      simpa using ih

theorem AcceptedCall.keepsPlaces_of_agree {isBlock : Bool} {omitted : List (CallParameter ω)}
    (h : Agree (expectedValues (freeValuation ω) [] (expectedSlots callee call.arguments))
      (passedValues caller (freeValuation ω) isBlock []
        ((callee.parameters.map CallParameter.name).zip call.slots) omitted)) :
    call.KeepsPlaces := by
  intro hgen i argument parameter harg hpar
  obtain ⟨values, hexpect, hpassed⟩ := h
  have hslt : call.slots = call.arguments.map fun argument => some (.written argument) := by
    rcases call.slots_cases with ⟨hnot, -⟩ | ⟨-, hslt⟩
    · rw [hnot] at hgen
      cases hgen
    · exact hslt
  have hslot : ((callee.parameters.map CallParameter.name).zip call.slots)[i]? =
      some (parameter.name, some (.written argument)) :=
    getElem?_zip_eq_some.2 ⟨by simp [hpar], by simp [hslt, harg]⟩
  have hexpectedSlot : (expectedSlots callee call.arguments)[i]? =
      some (parameter.name, fillGap parameter (writtenFor call.arguments i parameter)) := by
    simp [expectedSlots, hpar]
  obtain ⟨operands, hval⟩ := passed_node hpassed hslot
  obtain ⟨given, operands', hgiven, hval'⟩ := expectedValues_node hexpect hexpectedSlot
  have hnode : argument.value.node = given.node :=
    (CallTerm.node.inj (some.inj (hval.symm.trans hval'))).1
  have hmem := mem_of_getElem? harg
  obtain ⟨hnd, -, hdisj⟩ := nodup_append.1 call.nodup
  unfold fillGap at hgiven
  split at hgiven
  · rename_i found hfnd
    cases hgiven
    -- The same node is the same argument, and it was found by its name or is in front of these.
    obtain rfl : argument = found := inj_on_of_nodup_map hnd hmem (mem_of_writtenFor hfnd) hnode
    unfold writtenFor at hfnd
    split at hfnd
    · rename_i hpos
      have hunnamed := mem_takeWhile_imp (getElem_mem hpos)
      rw [(List.takeWhile_prefix _).getElem hpos] at hunnamed
      obtain ⟨hi, rfl⟩ := List.getElem?_eq_some_iff.1 harg
      exact .inl (by simpa using hunnamed)
    · exact .inr (by simpa using find?_some hfnd)
  · obtain ⟨value, hdef, rfl⟩ := map_eq_some_iff.1 hgiven
    refine absurd hnode (hdisj _ (mem_map_of_mem hmem) _ ?_)
    exact mem_filterMap.2 ⟨parameter, mem_of_getElem? hpar, by simp [hdef, ArgumentSlot.node]⟩

/-- `do f(a i64, b i64 = 10)`. -/
def secondDefaulted : Callee Bool where
  parameters := [⟨bytes "a", false, none⟩, ⟨bytes "b", false, some ⟨true, []⟩⟩]
  nodup := by decide
  required_first := by decide

/-- `f(name)`, where `name` is a local. -/
def passLocal (name : Text) : AcceptedCall secondDefaulted ⟨[name], [], id⟩ where
  arguments := [⟨none, ⟨false, [.ofVariable name]⟩, false⟩]
  sees := by simp [CallerScope.Sees]
  nodup := by simp [secondDefaulted, Callee.defaultNodes]
  isInGeneric := false
  slots := [some (.written ⟨none, ⟨false, [.ofVariable name]⟩, false⟩)]
  accepted := rfl

end Grayscale
