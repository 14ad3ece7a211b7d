import Grayscale.Typechecker.Instantiations
import Mathlib.Algebra.Order.BigOperators.Group.Finset
import Mathlib.Data.Set.Card
import Mathlib.Tactic.Ring

/-!
# The instantiations that are recorded

Where no walk leaves a wrong type argument behind, pass 3 ends, it has recorded the instantiations
that are needed and no others, and each call is emitted as the instantiation asks for it. So nothing
depends on the order of the walks.
-/

namespace Grayscale

open List Function
open Option (bind_eq_some_iff bind_some map_eq_some_iff map_some some.inj)

variable {p : GenericProgram}

/-! ### Type arguments -/

/-- The label that every walk leaves behind. -/
def normalLabel (p : GenericProgram) (f : ℕ) (isModule : Bool) (label : Text) : Text :=
  match (p.typeParameters f).idxOf? label with
  | some _ => label
  | none => (keepDistinct p isModule (p.resolve f label) (p.resolve f label)).1

/-- The bindings of the walks of a body. -/
def Visits (p : GenericProgram) (f : ℕ) (binding : Option Binding) : Prop :=
  binding = mainBinding p f ∨ ∃ types, binding = some types ∧ Needed p EveryBody f types

theorem keepDistinct_self (p : GenericProgram) (isModule : Bool) (label : Text) :
    (keepDistinct p isModule label label).1 = (keepDistinct p isModule label label).2 := by
  unfold keepDistinct
  split <;> rfl

theorem keepDistinct_resolve (p : GenericProgram) (f : ℕ) (isModule : Bool) (label : Text) :
    keepDistinct p isModule
        (p.resolve f (keepDistinct p isModule (p.resolve f label) (p.resolve f label)).1)
        (p.resolve f (keepDistinct p isModule (p.resolve f label) (p.resolve f label)).1) =
      keepDistinct p isModule (p.resolve f label) (p.resolve f label) := by
  rcases hrewritten : isModule && p.isEntryType (p.resolve f label) with _ | _
  · simp [keepDistinct, hrewritten, p.resolve_resolve]
  · have hent : p.isEntryType (p.resolve f label) = true := by
      simp only [Bool.and_eq_true] at hrewritten
      exact hrewritten.2
    have hdist := p.resolve_distinct f _ hent
    simp only [keepDistinct, hrewritten, if_true, hdist]

theorem keepDistinct_of_visits (h : KeepsLabels p) {f slot callee : ℕ} {types : Binding}
    {call : GenericCall} {label : Text} (hvis : Visits p f (some types)) (hcall : call ∈ p.calls f)
    (hdisp : call.dispatch (some types) = some callee) (hlab : label ∈ call.arguments)
    (hslot : (p.typeParameters f).idxOf? label = some slot) :
    keepDistinct p (p.isModule callee) label (types.getD slot []) = (label, types.getD slot []) := by
  rcases hvis with hmain | ⟨types', htys, hneeded⟩
  · unfold mainBinding at hmain
    split at hmain
    · rename_i hemp
      rw [hemp] at hslot
      cases hslot
    · cases hmain
  · cases htys
    unfold keepDistinct
    split
    · rename_i hrewritten
      obtain ⟨hmod, hent⟩ : p.isModule callee = true ∧
          p.isEntryType (types.getD slot []) = true := by simpa using hrewritten
      rw [h.forwarded f types call callee label slot hneeded hcall hdisp hlab hslot hmod]
        at hent
      cases hent
    · rfl

theorem typeArgument_label (h : KeepsLabels p) {f callee : ℕ} {binding : Option Binding}
    {call : GenericCall} {label : Text} (hvis : Visits p f binding) (hcall : call ∈ p.calls f)
    (hdisp : call.dispatch binding = some callee) (hlab : label ∈ call.arguments) :
    (resolveTypeArgument p f binding callee label).1 = normalLabel p f (p.isModule callee) label := by
  unfold resolveTypeArgument normalLabel
  rcases hslot : (p.typeParameters f).idxOf? label with _ | slot
  · rfl
  · cases binding with
    | none => rfl
    | some types =>
      dsimp only
      rw [keepDistinct_of_visits h hvis hcall hdisp hlab hslot]
      rfl

theorem typeArgument_normalLabel (h : KeepsLabels p) {f callee : ℕ}
    {binding : Option Binding} {call : GenericCall} {label : Text} (hcall : call ∈ p.calls f)
    (hdisp : call.dispatch binding = some callee) (hlab : label ∈ call.arguments) :
    resolveTypeArgument p f binding callee (normalLabel p f (p.isModule callee) label) =
      resolveTypeArgument p f binding callee label := by
  rcases hslot : (p.typeParameters f).idxOf? label with _ | slot
  · have hcaptured := h.captured f call label binding callee hcall hlab hslot hdisp
    simp only [resolveTypeArgument, hslot] at hcaptured
    simp only [resolveTypeArgument, normalLabel, hslot]
    change (p.typeParameters f).idxOf? (keepDistinct p _ _ _).1 = none at hcaptured
    simp only [hcaptured, keepDistinct_resolve]
  · simp only [normalLabel, hslot]

theorem typeArgument_type (h : KeepsLabels p) {f callee : ℕ} {types : Binding}
    {call : GenericCall} {label : Text} (hvis : Visits p f (some types)) (hcall : call ∈ p.calls f)
    (hdisp : call.dispatch (some types) = some callee) (hlab : label ∈ call.arguments) :
    (resolveTypeArgument p f (some types) callee label).2 =
      some (boundName p f types (normalLabel p f (p.isModule callee) label)) := by
  rcases hslot : (p.typeParameters f).idxOf? label with _ | slot
  · have hcaptured := h.captured f call label _ callee hcall hlab hslot hdisp
    rw [typeArgument_label h hvis hcall hdisp hlab] at hcaptured
    simp only [boundName, hcaptured]
    simp only [resolveTypeArgument, normalLabel, hslot]
    rw [keepDistinct_self]
    rfl
  · simp only [resolveTypeArgument, normalLabel, boundName, hslot]
    rw [keepDistinct_of_visits h hvis hcall hdisp hlab hslot]
    rfl

/-! ### One call -/

@[simp]
theorem updateCall_self {α : Type} (values : ℕ → ℕ → α) (f k : ℕ) (value : α) :
    updateCall values f k value f k = value := by
  simp [updateCall]

theorem updateCall_of_ne {α : Type} (values : ℕ → ℕ → α) {f k f' k' : ℕ} (value : α)
    (h : ¬(f' = f ∧ k' = k)) : updateCall values f k value f' k' = values f' k' := by
  unfold updateCall
  rcases eq_or_ne f' f with rfl | hf
  · rw [update_self, update_of_ne fun hk => h ⟨rfl, hk⟩]
  · rw [update_of_ne hf]

theorem mem_record {found : ℕ → List Binding} {callee g : ℕ} {types types' : Binding} :
    types' ∈ recordInstantiation found callee types g ↔
      types' ∈ found g ∨ g = callee ∧ types' = types := by
  unfold recordInstantiation
  split
  · rename_i hmem
    refine ⟨.inl, ?_⟩
    rintro (hold | ⟨rfl, rfl⟩)
    · exact hold
    · exact hmem
  · rcases eq_or_ne g callee with rfl | hne
    · simp
    · simp [hne]

theorem nodup_record {found : ℕ → List Binding} {callee : ℕ} {types : Binding}
    (h : ∀ g, (found g).Nodup) (g : ℕ) : (recordInstantiation found callee types g).Nodup := by
  unfold recordInstantiation
  split
  · exact h g
  · rename_i hnew
    rcases eq_or_ne g callee with rfl | hne
    · rw [update_self]
      exact nodup_append.2 ⟨h g, nodup_singleton _, by
        rintro types' hmem _ hself rfl
        exact hnew ((mem_singleton.1 hself) ▸ hmem)⟩
    · rw [update_of_ne hne]
      exact h g

theorem prefix_record (found : ℕ → List Binding) (callee : ℕ) (types : Binding)
    (g : ℕ) : found g <+: recordInstantiation found callee types g := by
  unfold recordInstantiation
  split
  · exact prefix_rfl
  · rcases eq_or_ne g callee with rfl | hne
    · rw [update_self]
      exact prefix_append _ _
    · rw [update_of_ne hne]

/-- What is recorded at a call that asks for an instantiation, or for none. -/
def recordCalled (found : ℕ → List Binding) : Option (ℕ × Binding) → ℕ → List Binding
  | none => found
  | some (callee, types) => recordInstantiation found callee types

theorem mem_recordCalled {found : ℕ → List Binding} {called : Option (ℕ × Binding)} {g : ℕ}
    {types : Binding} :
    types ∈ recordCalled found called g ↔ types ∈ found g ∨ called = some (g, types) := by
  rcases called with _ | ⟨callee, types'⟩
  · simp [recordCalled]
  · rw [recordCalled, mem_record, Option.some_inj, Prod.mk.injEq, eq_comm (a := g),
      eq_comm (a := types)]

theorem nodup_recordCalled {found : ℕ → List Binding} (h : ∀ g, (found g).Nodup)
    (called : Option (ℕ × Binding)) (g : ℕ) : (recordCalled found called g).Nodup := by
  rcases called with _ | ⟨callee, types⟩
  · exact h g
  · exact nodup_record h g

theorem prefix_recordCalled (found : ℕ → List Binding) (called : Option (ℕ × Binding)) (g : ℕ) :
    found g <+: recordCalled found called g := by
  rcases called with _ | ⟨callee, types⟩
  · exact prefix_rfl
  · exact prefix_record ..

/-- What is true of the shared tree and of what is recorded after every walk. -/
structure SoundState (p : GenericProgram) (st : InstantiationState) : Prop where
  /-- The type arguments are as they are written, or as every walk leaves them. -/
  labels : ∀ f entry, entry ∈ (p.calls f).zipIdx →
    st.labels f entry.2 = entry.1.arguments ∨ ∃ binding callee,
      entry.1.dispatch binding = some callee ∧
        st.labels f entry.2 = entry.1.arguments.map (normalLabel p f (p.isModule callee))
  forms : ∀ f entry types callee, entry ∈ (p.calls f).zipIdx →
    (types, callee) ∈ st.forms f entry.2 → entry.1.dispatch (some types) = some callee
  found : ∀ f types, types ∈ st.found f → Needed p EveryBody f types
  nodup : ∀ f, (st.found f).Nodup

def CheckedCall (p : GenericProgram) (st : InstantiationState) (f : ℕ) (binding : Option Binding)
    (entry : GenericCall × ℕ) : Prop := ∀ callee, entry.1.dispatch binding = some callee →
    st.labels f entry.2 = entry.1.arguments.map (normalLabel p f (p.isModule callee)) ∧
      ∀ types, calledFrom p f binding entry.1 = some (callee, types) → types ∈ st.found callee

theorem mem_calls_of_mem_zipIdx {f : ℕ} {entry : GenericCall × ℕ}
    (h : entry ∈ (p.calls f).zipIdx) : entry.1 ∈ p.calls f :=
  mem_of_getElem? (mem_zipIdx_iff_getElem?.1 h)

theorem entry_eq {f : ℕ} {entry entry' : GenericCall × ℕ} (h : entry ∈ (p.calls f).zipIdx)
    (h' : entry' ∈ (p.calls f).zipIdx) (hplc : entry'.2 = entry.2) : entry' = entry := by
  have hcall := mem_zipIdx_iff_getElem?.1 h
  have hcall' := mem_zipIdx_iff_getElem?.1 h'
  rw [hplc, hcall] at hcall'
  exact Prod.ext (some.inj hcall').symm hplc

theorem SoundState.map_labels {st : InstantiationState} (hst : SoundState p st) (h : KeepsLabels p)
    {f callee : ℕ} {binding : Option Binding} {entry : GenericCall × ℕ}
    (hent : entry ∈ (p.calls f).zipIdx) (hdisp : entry.1.dispatch binding = some callee) :
    (st.labels f entry.2).map (resolveTypeArgument p f binding callee) =
      entry.1.arguments.map (resolveTypeArgument p f binding callee) := by
  have hcall := mem_calls_of_mem_zipIdx hent
  rcases hst.labels f entry hent with hlabels | ⟨binding', callee', hdisp', hlabels⟩
  · rw [hlabels]
  · rw [hlabels, map_map]
    refine map_congr_left fun label hlab => ?_
    rw [Function.comp_apply,
      h.dispatched f entry.1 binding' binding callee' callee hcall hdisp' hdisp]
    exact typeArgument_normalLabel h hcall hdisp hlab

theorem checkCall_eq {st : InstantiationState} (hst : SoundState p st) (h : KeepsLabels p)
    {f callee : ℕ} {binding : Option Binding} {entry : GenericCall × ℕ}
    (hvis : Visits p f binding) (hent : entry ∈ (p.calls f).zipIdx)
    (hdisp : entry.1.dispatch binding = some callee) : checkCall p f binding st entry =
      { labels := updateCall st.labels f entry.2
          (entry.1.arguments.map (normalLabel p f (p.isModule callee)))
        forms := recordForm st.forms f entry.2 binding callee
        found := recordCalled st.found (calledFrom p f binding entry.1) } := by
  have hcall := mem_calls_of_mem_zipIdx hent
  have hlabels : (entry.1.arguments.map (resolveTypeArgument p f binding callee)).map Prod.fst =
      entry.1.arguments.map (normalLabel p f (p.isModule callee)) := by
    rw [map_map]
    exact map_congr_left fun label hlab =>
      typeArgument_label h hvis hcall hdisp hlab
  unfold checkCall
  rw [hdisp]
  dsimp only
  rw [hst.map_labels h hent hdisp, hlabels, calledFrom, hdisp, bind_some, mapM_map]
  congr 1
  have hcomp : (Prod.snd ∘ resolveTypeArgument p f binding callee) = fun label =>
      (resolveTypeArgument p f binding callee label).2 := rfl
  rw [hcomp]
  cases entry.1.arguments.mapM fun label => (resolveTypeArgument p f binding callee label).2 <;> rfl

theorem checkCall_of_none {st : InstantiationState} {f : ℕ} {binding : Option Binding}
    {entry : GenericCall × ℕ} (hdisp : entry.1.dispatch binding = none) :
    checkCall p f binding st entry = st := by
  simp [checkCall, hdisp]

theorem Visits.needed {f g : ℕ} {binding : Option Binding} {call : GenericCall} {types : Binding}
    (hvis : Visits p f binding) (hcall : call ∈ p.calls f)
    (hcalled : calledFrom p f binding call = some (g, types)) : Needed p EveryBody g types := by
  rcases hvis with rfl | ⟨types', rfl, hneeded⟩
  · exact Needed.called trivial hcall hcalled
  · exact Needed.instantiated hneeded hcall hcalled

theorem mem_recordForm {forms : ℕ → ℕ → List (Binding × ℕ)} {f k f' k' callee callee' : ℕ}
    {binding : Option Binding} {types : Binding}
    (h : (types, callee') ∈ recordForm forms f k binding callee f' k') :
    (types, callee') ∈ forms f' k' ∨ f' = f ∧ k' = k ∧ binding = some types ∧ callee' = callee := by
  cases binding with
  | none => exact .inl h
  | some types' =>
    simp only [recordForm] at h
    by_cases hsame : f' = f ∧ k' = k
    · obtain ⟨rfl, rfl⟩ := hsame
      rw [updateCall_self] at h
      rcases mem_cons.1 h with hnew | hold
      · cases hnew
        exact .inr ⟨rfl, rfl, rfl, rfl⟩
      · exact .inl hold
    · rw [updateCall_of_ne _ _ hsame] at h
      exact .inl h

theorem SoundState.checkCall {st : InstantiationState} (hst : SoundState p st) (h : KeepsLabels p)
    {f : ℕ} {binding : Option Binding} {entry : GenericCall × ℕ} (hvis : Visits p f binding)
    (hent : entry ∈ (p.calls f).zipIdx) : SoundState p (checkCall p f binding st entry) := by
  rcases hdisp : entry.1.dispatch binding with _ | callee
  · rwa [checkCall_of_none hdisp]
  · rw [checkCall_eq hst h hvis hent hdisp]
    refine ⟨fun f' entry' hent' => ?_, fun f' entry' types callee' hent' hform => ?_,
      fun g types hfound => ?_, fun g => ?_⟩
    · by_cases hsame : f' = f ∧ entry'.2 = entry.2
      · obtain ⟨rfl, hplc⟩ := hsame
        obtain rfl := entry_eq hent hent' hplc
        exact .inr ⟨binding, callee, hdisp, updateCall_self ..⟩
      · dsimp only
        rw [updateCall_of_ne _ _ hsame]
        exact hst.labels f' entry' hent'
    · rcases mem_recordForm hform with hold | ⟨rfl, hplc, rfl, rfl⟩
      · exact hst.forms f' entry' types callee' hent' hold
      · obtain rfl := entry_eq hent hent' hplc
        exact hdisp
    · rcases mem_recordCalled.1 hfound with hold | hcalled
      · exact hst.found g types hold
      · exact hvis.needed (mem_calls_of_mem_zipIdx hent) hcalled
    · exact nodup_recordCalled hst.nodup _ g

/-- What was recorded and walked stays so. -/
structure Grows (p : GenericProgram) (st st' : InstantiationState) : Prop where
  found : ∀ g, st.found g <+: st'.found g
  checked : ∀ f binding entry, entry ∈ (p.calls f).zipIdx → CheckedCall p st f binding entry →
    CheckedCall p st' f binding entry

theorem Grows.rfl (st : InstantiationState) : Grows p st st :=
  ⟨fun _ => prefix_rfl, fun _ _ _ _ hchk => hchk⟩

theorem Grows.trans {st st' st'' : InstantiationState} (h : Grows p st st') (h' : Grows p st' st'') :
    Grows p st st'' := ⟨fun g => (h.found g).trans (h'.found g), fun f binding entry hent hchk =>
    h'.checked f binding entry hent (h.checked f binding entry hent hchk)⟩

theorem SoundState.grows_checkCall {st : InstantiationState} (hst : SoundState p st)
    (h : KeepsLabels p) {f : ℕ} {binding : Option Binding} {entry : GenericCall × ℕ}
    (hvis : Visits p f binding) (hent : entry ∈ (p.calls f).zipIdx) :
    Grows p st (Grayscale.checkCall p f binding st entry) := by
  rcases hdisp : entry.1.dispatch binding with _ | callee
  · rw [checkCall_of_none hdisp]
    exact Grows.rfl st
  · rw [checkCall_eq hst h hvis hent hdisp]
    have hfound := prefix_recordCalled st.found (calledFrom p f binding entry.1)
    refine ⟨hfound, fun f' binding' entry' hent' hchk callee' hdisp' => ?_⟩
    obtain ⟨hlabels, htys⟩ := hchk callee' hdisp'
    refine ⟨?_, fun types hcalled => (hfound callee').subset (htys types hcalled)⟩
    by_cases hsame : f' = f ∧ entry'.2 = entry.2
    · obtain ⟨rfl, hplc⟩ := hsame
      obtain rfl := entry_eq hent hent' hplc
      -- The call was dispatched to another function, but of the same kind.
      dsimp only
      rw [updateCall_self, h.dispatched f' entry'.1 binding binding' callee callee'
        (mem_calls_of_mem_zipIdx hent) hdisp hdisp']
    · dsimp only
      rwa [updateCall_of_ne _ _ hsame]

theorem SoundState.checkedCall {st : InstantiationState} (hst : SoundState p st)
    (h : KeepsLabels p) {f : ℕ} {binding : Option Binding} {entry : GenericCall × ℕ}
    (hvis : Visits p f binding) (hent : entry ∈ (p.calls f).zipIdx) :
    CheckedCall p (Grayscale.checkCall p f binding st entry) f binding entry := by
  intro callee hdisp
  rw [checkCall_eq hst h hvis hent hdisp]
  exact ⟨updateCall_self .., fun types hcalled => mem_recordCalled.2 (.inr hcalled)⟩

/-! ### The walk of a body -/

def CheckedBody (p : GenericProgram) (st : InstantiationState) (f : ℕ) (binding : Option Binding) :
    Prop := ∀ entry ∈ (p.calls f).zipIdx, CheckedCall p st f binding entry

theorem Grows.checkedBody {st st' : InstantiationState} (h : Grows p st st') {f : ℕ}
    {binding : Option Binding} (hchk : CheckedBody p st f binding) : CheckedBody p st' f binding :=
  fun entry hent => h.checked f binding entry hent (hchk entry hent)

theorem SoundState.foldl_checkCall (h : KeepsLabels p) {f : ℕ} {binding : Option Binding}
    (hvis : Visits p f binding) :
    ∀ (entries : List (GenericCall × ℕ)) {st : InstantiationState}, SoundState p st →
      (∀ entry ∈ entries, entry ∈ (p.calls f).zipIdx) →
        SoundState p (entries.foldl (Grayscale.checkCall p f binding) st) ∧
          Grows p st (entries.foldl (Grayscale.checkCall p f binding) st) ∧ ∀ entry ∈ entries,
            CheckedCall p (entries.foldl (Grayscale.checkCall p f binding) st) f binding entry
  | [], st, hst, _ => ⟨hst, Grows.rfl st, by simp⟩
  | entry :: entries, st, hst, hents => by
    obtain ⟨hent, hrest⟩ := forall_mem_cons.1 hents
    obtain ⟨hsound, hgro, hchk⟩ := foldl_checkCall h hvis entries (hst.checkCall h hvis hent) hrest
    refine ⟨hsound, (hst.grows_checkCall h hvis hent).trans hgro, forall_mem_cons.2 ⟨?_, hchk⟩⟩
    exact hgro.checked f binding entry hent (hst.checkedCall h hvis hent)

theorem SoundState.checkBody {st : InstantiationState} (hst : SoundState p st) (h : KeepsLabels p)
    {f : ℕ} {binding : Option Binding} (hvis : Visits p f binding) :
    SoundState p (checkBody p f binding st) ∧ Grows p st (checkBody p f binding st) ∧
      CheckedBody p (checkBody p f binding st) f binding :=
  SoundState.foldl_checkCall h hvis _ hst fun _ hent => hent

theorem soundState_writtenCalls (p : GenericProgram) : SoundState p (writtenCalls p) := by
  refine ⟨fun f entry hent => .inl ?_, fun _ _ _ _ _ hform => ?_, fun _ _ hfound => ?_,
    fun _ => nodup_nil⟩
  · simp [writtenCalls, mem_zipIdx_iff_getElem?.1 hent]
  · cases hform
  · cases hfound

theorem mainPass_checked (h : KeepsLabels p) : SoundState p (mainPass p) ∧
      ∀ f < p.functions.length, CheckedBody p (mainPass p) f (mainBinding p f) := by
  have hfold : ∀ (fs : List ℕ) (st : InstantiationState), SoundState p st →
      SoundState p (fs.foldl (fun st f => checkBody p f (mainBinding p f) st) st) ∧
        Grows p st (fs.foldl (fun st f => checkBody p f (mainBinding p f) st) st) ∧
        ∀ f ∈ fs, CheckedBody p
          (fs.foldl (fun st f => checkBody p f (mainBinding p f) st) st) f (mainBinding p f) := by
    intro fs
    induction fs with
    | nil => exact fun st hst => ⟨hst, Grows.rfl st, by simp⟩
    | cons f fs ih =>
      intro st hst
      obtain ⟨hsound, hgro, hbody⟩ := hst.checkBody h (f := f) (.inl rfl)
      obtain ⟨hsound', hgro', hbodies⟩ := ih _ hsound
      exact ⟨hsound', hgro.trans hgro', forall_mem_cons.2 ⟨hgro'.checkedBody hbody, hbodies⟩⟩
  obtain ⟨hsound, -, hbodies⟩ := hfold (List.range p.functions.length) _ (soundState_writtenCalls p)
  exact ⟨hsound, fun f hf => hbodies f (mem_range.2 hf)⟩

/-! ### Pass 3 -/

/-- What holds between the steps of pass 3. -/
structure PassSound (p : GenericProgram) (s : InstantiationPass) : Prop where
  sound : SoundState p s.check
  main : ∀ f < p.functions.length, CheckedBody p s.check f (mainBinding p f)
  walked : ∀ f i types, i < s.cursors f → (s.check.found f)[i]? = some types →
    CheckedBody p s.check f (some types)
  cursors_le : ∀ f, s.cursors f ≤ (s.check.found f).length
  index_le : s.index ≤ p.functions.length
  /-- A round that has walked nothing so far has passed functions that are done. -/
  settled : s.isNew = false → ∀ f < s.index, s.cursors f = (s.check.found f).length

theorem PassSound.walk {s : InstantiationPass} (hs : PassSound p s) (h : KeepsLabels p)
    {types : Binding} (htys : (s.check.found s.index)[s.cursors s.index]? = some types) :
    PassSound p
      { s with
        check := checkBody p s.index (some types) s.check
        cursors := update s.cursors s.index (s.cursors s.index + 1)
        isNew := true } := by
  have hneeded := hs.sound.found s.index types (mem_of_getElem? htys)
  obtain ⟨hsound, hgro, hbody⟩ := hs.sound.checkBody h (f := s.index) (.inr ⟨types, rfl, hneeded⟩)
  have hkept : ∀ {f i : ℕ}, i < (s.check.found f).length →
      ((checkBody p s.index (some types) s.check).found f)[i]? = (s.check.found f)[i]? := by
    intro f i hi
    obtain ⟨more, hmore⟩ := hgro.found f
    rw [← hmore, getElem?_append_left hi]
  obtain ⟨hcur, -⟩ := List.getElem?_eq_some_iff.1 htys
  refine ⟨hsound, fun f hf => hgro.checkedBody (hs.main f hf), fun f i types' hi hfound => ?_,
    fun f => ?_, hs.index_le, fun hnew => by cases hnew⟩
  · dsimp only at hi hfound ⊢
    rcases eq_or_ne f s.index with rfl | hne
    · rw [update_self] at hi
      rw [hkept (by omega)] at hfound
      rcases Nat.lt_succ_iff_lt_or_eq.1 hi with hold | rfl
      · exact hgro.checkedBody (hs.walked _ i types' hold hfound)
      · rw [htys] at hfound
        cases hfound
        exact hbody
    · rw [update_of_ne hne] at hi
      rw [hkept (lt_of_lt_of_le hi (hs.cursors_le f))] at hfound
      exact hgro.checkedBody (hs.walked f i types' hi hfound)
  · dsimp only
    have hlen := (hgro.found f).length_le
    rcases eq_or_ne f s.index with rfl | hne
    · rw [update_self]
      omega
    · rw [update_of_ne hne]
      exact (hs.cursors_le f).trans hlen

theorem PassSound.next {s : InstantiationPass} (hs : PassSound p s)
    (hidx : s.index < p.functions.length)
    (hnone : (s.check.found s.index)[s.cursors s.index]? = none) :
    PassSound p { s with index := s.index + 1 } := by
  refine ⟨hs.sound, hs.main, hs.walked, hs.cursors_le, hidx, fun hnew f hf => ?_⟩
  rcases Nat.lt_succ_iff_lt_or_eq.1 hf with hold | rfl
  · exact hs.settled hnew f hold
  · exact le_antisymm (hs.cursors_le _) (List.getElem?_eq_none_iff.1 hnone)

theorem instantiationStep_cases {s s' : InstantiationPass} (hstep : instantiationStep p s = some s') :
    (s.index < p.functions.length ∧ (s.check.found s.index)[s.cursors s.index]? = none ∧
      s' = { s with index := s.index + 1 }) ∨ (∃ types, s.index < p.functions.length ∧
      (s.check.found s.index)[s.cursors s.index]? = some types ∧ s' = { s with
        check := checkBody p s.index (some types) s.check
        cursors := update s.cursors s.index (s.cursors s.index + 1)
        isNew := true }) ∨ (¬ s.index < p.functions.length ∧ s.isNew = true ∧
      s' = { s with index := 0, isNew := false }) := by
  rw [instantiationStep] at hstep
  split_ifs at hstep with hidx hnew
  · cases htys : (s.check.found s.index)[s.cursors s.index]? with
    | none =>
      rw [htys] at hstep
      exact .inl ⟨hidx, rfl, (some.inj hstep).symm⟩
    | some types =>
      rw [htys] at hstep
      exact .inr (.inl ⟨types, hidx, rfl, (some.inj hstep).symm⟩)
  · exact .inr (.inr ⟨hidx, hnew, (some.inj hstep).symm⟩)

theorem PassSound.step {s s' : InstantiationPass} (hs : PassSound p s) (h : KeepsLabels p)
    (hstep : instantiationStep p s = some s') : PassSound p s' := by
  obtain ⟨hidx, htys, rfl⟩ | ⟨types, hidx, htys, rfl⟩ | ⟨-, -, rfl⟩ := instantiationStep_cases hstep
  · exact hs.next hidx htys
  · exact hs.walk h htys
  · exact ⟨hs.sound, hs.main, hs.walked, hs.cursors_le, Nat.zero_le _,
      fun _ f hf => absurd hf (Nat.not_lt_zero f)⟩

theorem passSound_mainPass (h : KeepsLabels p) :
    PassSound p { check := mainPass p, cursors := fun _ => 0, index := 0, isNew := false } := by
  obtain ⟨hsound, hmain⟩ := mainPass_checked h
  exact ⟨hsound, hmain, fun f i types hi => absurd hi (Nat.not_lt_zero i), fun _ => Nat.zero_le _,
    Nat.zero_le _, fun _ f hf => absurd hf (Nat.not_lt_zero f)⟩

/-! ### The end of pass 3 -/

theorem GenericProgram.dispatch_lt_of_mem (p : GenericProgram) {f callee : ℕ} {call : GenericCall}
    {binding : Option Binding} (hcall : call ∈ p.calls f)
    (hdisp : call.dispatch binding = some callee) : callee < p.functions.length := by
  rcases hfn : p.functions[f]? with _ | function
  · simp [GenericProgram.calls, hfn] at hcall
  · simp only [GenericProgram.calls, hfn, map_some, Option.getD_some] at hcall
    exact p.dispatch_lt function (mem_of_getElem? hfn) call hcall binding callee hdisp

theorem mem_zipIdx_of_mem_calls {f : ℕ} {call : GenericCall} (h : call ∈ p.calls f) :
    ∃ k, (call, k) ∈ (p.calls f).zipIdx := by
  obtain ⟨k, hk⟩ := mem_iff_getElem?.1 h
  exact ⟨k, mem_zipIdx_iff_getElem?.2 hk⟩

theorem lt_of_mem_calls {f : ℕ} {call : GenericCall} (h : call ∈ p.calls f) :
    f < p.functions.length := by
  by_contra hge
  rw [GenericProgram.calls, getElem?_eq_none (by omega)] at h
  cases h

theorem CheckedBody.found {st : InstantiationState} {f g : ℕ} {binding : Option Binding}
    {call : GenericCall} {types : Binding} (hchk : CheckedBody p st f binding)
    (hcall : call ∈ p.calls f) (hcalled : calledFrom p f binding call = some (g, types)) :
    types ∈ st.found g := by
  obtain ⟨k, hent⟩ := mem_zipIdx_of_mem_calls hcall
  obtain ⟨callee, hdisp, htys⟩ := bind_eq_some_iff.1 hcalled
  obtain ⟨_, -, hpair⟩ := map_eq_some_iff.1 htys
  cases hpair
  exact (hchk _ hent _ hdisp).2 _ hcalled

theorem PassSound.checkedBody_of_done {s : InstantiationPass} (hs : PassSound p s)
    (hdone : instantiationStep p s = none) {f : ℕ} (hf : f < p.functions.length) {types : Binding}
    (htys : types ∈ s.check.found f) : CheckedBody p s.check f (some types) := by
  unfold instantiationStep at hdone
  split at hdone
  · split at hdone <;> cases hdone
  · rename_i hidx
    split at hdone
    · cases hdone
    · rename_i hnew
      have hsettled := hs.settled (by simpa using hnew) f (by omega)
      obtain ⟨i, hi⟩ := mem_iff_getElem?.1 htys
      obtain ⟨hlt, -⟩ := List.getElem?_eq_some_iff.1 hi
      exact hs.walked f i types (by omega) hi

theorem PassSound.found_iff {s : InstantiationPass} (hs : PassSound p s)
    (hdone : instantiationStep p s = none) (f : ℕ) (types : Binding) :
    types ∈ s.check.found f ↔ Needed p EveryBody f types := by
  refine ⟨hs.sound.found f types, fun hneeded => ?_⟩
  induction hneeded with
  | called _ hcall hcalled =>
    exact (hs.main _ (lt_of_mem_calls hcall)).found hcall hcalled
  | instantiated _ hcall hcalled ih =>
    exact (hs.checkedBody_of_done hdone (lt_of_mem_calls hcall) ih).found hcall hcalled

/-! ### Pass 3 ends -/

theorem mem_of_lookup_eq_some {α β : Type} [BEq α] [LawfulBEq α] {key : α} {value : β} :
    ∀ {entries : List (α × β)}, entries.lookup key = some value → (key, value) ∈ entries
  | (other, v) :: entries, h => by
    rw [lookup_cons] at h
    split at h
    · rename_i hkey
      cases h
      rw [eq_of_beq hkey]
      exact mem_cons_self
    · exact mem_cons_of_mem _ (mem_of_lookup_eq_some h)

theorem mapM_eq_some_map {α β : Type} {g : α → Option β} {value : α → β} :
    ∀ {xs : List α}, (∀ x ∈ xs, g x = some (value x)) → xs.mapM g = some (xs.map value)
  | [], _ => rfl
  | x :: xs, h => by
    obtain ⟨hx, hxs⟩ := forall_mem_cons.1 h
    rw [mapM_cons, hx, mapM_eq_some_map hxs]
    rfl

theorem mapM_length_mem {α β : Type} {g : α → Option β} : ∀ {xs : List α} {ys : List β},
    xs.mapM g = some ys → ys.length = xs.length ∧ ∀ y ∈ ys, ∃ x ∈ xs, g x = some y
  | [], _, h => by
    cases h
    simp
  | x :: xs, ys, h => by
    rw [mapM_cons] at h
    obtain ⟨y, hy, h⟩ := bind_eq_some_iff.1 h
    obtain ⟨rest, hrest, h⟩ := bind_eq_some_iff.1 h
    cases h
    obtain ⟨hlen, hmem⟩ := mapM_length_mem hrest
    refine ⟨by simp [hlen], forall_mem_cons.2 ⟨⟨x, mem_cons_self, hy⟩, ?_⟩⟩
    intro y' hy'
    obtain ⟨x', hx', hg⟩ := hmem y' hy'
    exact ⟨x', mem_cons_of_mem _ hx', hg⟩

def GenericProgram.allCalls (p : GenericProgram) : List (ℕ × GenericCall) :=
  (List.range p.functions.length).flatMap fun f => (p.calls f).map fun call => (f, call)

theorem mem_allCalls {f : ℕ} {call : GenericCall} (h : call ∈ p.calls f) : (f, call) ∈ p.allCalls :=
  mem_flatMap.2 ⟨f, mem_range.2 (lt_of_mem_calls h), mem_map_of_mem h⟩

/-- The types that type arguments can stand for. -/
def GenericProgram.typeNames (p : GenericProgram) : List Text :=
  [] :: p.allCalls.flatMap fun (f, call) => call.arguments.flatMap fun label =>
    [p.resolve f label, byte '.' :: p.resolve f label]

theorem mem_typeNames_of_keepDistinct {f : ℕ} {isModule : Bool} {call : GenericCall} {label : Text}
    (hcall : call ∈ p.calls f) (hlab : label ∈ call.arguments) :
    (keepDistinct p isModule (p.resolve f label) (p.resolve f label)).2 ∈ p.typeNames := by
  refine mem_cons_of_mem _ (mem_flatMap.2 ⟨(f, call), mem_allCalls hcall,
    mem_flatMap.2 ⟨label, hlab, ?_⟩⟩)
  unfold keepDistinct
  split <;> simp

theorem mem_typeNames_of_resolve (h : KeepsLabels p) {f callee : ℕ} {binding : Option Binding}
    {call : GenericCall} {label type : Text} (hvis : Visits p f binding)
    (hbnd : ∀ types, binding = some types → ∀ t ∈ types, t ∈ p.typeNames)
    (hcall : call ∈ p.calls f) (hdisp : call.dispatch binding = some callee)
    (hlab : label ∈ call.arguments)
    (htype : (resolveTypeArgument p f binding callee label).2 = some type) :
    type ∈ p.typeNames := by
  rcases hslot : (p.typeParameters f).idxOf? label with _ | slot
  · simp only [resolveTypeArgument, hslot] at htype
    cases htype
    exact mem_typeNames_of_keepDistinct hcall hlab
  · cases binding with
    | none =>
      simp only [resolveTypeArgument, hslot] at htype
      cases htype
    | some types =>
      simp only [resolveTypeArgument, hslot] at htype
      rw [keepDistinct_of_visits h hvis hcall hdisp hlab hslot] at htype
      cases htype
      rcases hget : types[slot]? with _ | t
      · simp [hget, GenericProgram.typeNames]
      · have hmem := hbnd types rfl t (mem_of_getElem? hget)
        simpa [hget] using hmem

theorem finite_needed (h : KeepsLabels p) (f : ℕ) : {types | Needed p EveryBody f types}.Finite := by
  have hits : {t | t ∈ p.typeNames}.Finite := finite_toSet _
  refine (finite_lists hits ((p.allCalls.map fun entry => entry.2.arguments.length).sum)).subset ?_
  have hcalled : ∀ {f g : ℕ} {binding : Option Binding} {call : GenericCall} {types : Binding},
      Visits p f binding → (∀ types, binding = some types → ∀ t ∈ types, t ∈ p.typeNames) →
        call ∈ p.calls f → calledFrom p f binding call = some (g, types) →
          types.length ≤ (p.allCalls.map fun entry => entry.2.arguments.length).sum ∧
            ∀ t ∈ types, t ∈ p.typeNames := by
    intro f g binding call types hvis hbnd hcall hcalled
    obtain ⟨callee, hdisp, htys⟩ := bind_eq_some_iff.1 hcalled
    obtain ⟨types', htys, hpair⟩ := map_eq_some_iff.1 htys
    cases hpair
    obtain ⟨hlen, hmem⟩ := mapM_length_mem htys
    refine ⟨?_, fun t ht => ?_⟩
    · rw [hlen]
      exact le_sum_of_mem (mem_map_of_mem (mem_allCalls hcall))
    · obtain ⟨label, hlab, htype⟩ := hmem t ht
      exact mem_typeNames_of_resolve h hvis hbnd hcall hdisp hlab htype
  intro types hneeded
  induction hneeded with
  | @called f g call types _ hcall hroot =>
    refine hcalled (.inl rfl) (fun types hmain t ht => ?_) hcall hroot
    unfold mainBinding at hmain
    split at hmain <;> cases hmain
    cases ht
  | @instantiated f g binding types call hneeded hcall hnext ih =>
    refine hcalled (.inr ⟨binding, rfl, hneeded⟩) (fun types heq t ht => ?_) hcall hnext
    cases heq
    exact ih.2 t ht

/-- The instantiations that are not walked yet, of those that are needed. -/
noncomputable def remaining (p : GenericProgram) (s : InstantiationPass) : ℕ :=
  ∑ f ∈ Finset.range p.functions.length, ({types | Needed p EveryBody f types}.ncard - s.cursors f)

/-- Steps to the next walk, or to the end of the next round. -/
noncomputable def stepMeasure (p : GenericProgram) (s : InstantiationPass) : ℕ :=
  (2 * remaining p s + if s.isNew then 1 else 0) * (p.functions.length + 1) +
    (p.functions.length - s.index)

theorem PassSound.length_le (h : KeepsLabels p) {s : InstantiationPass} (hs : PassSound p s)
    (f : ℕ) : (s.check.found f).length ≤ {types | Needed p EveryBody f types}.ncard := by
  rw [← toFinset_card_of_nodup (hs.sound.nodup f), ← Set.ncard_coe_finset]
  refine Set.ncard_le_ncard (fun types htys => ?_) (finite_needed h f)
  exact hs.sound.found f types (by simpa using htys)

theorem PassSound.remaining_lt (h : KeepsLabels p) {s s' : InstantiationPass} (hs : PassSound p s)
    {types : Binding} (hidx : s.index < p.functions.length)
    (htys : (s.check.found s.index)[s.cursors s.index]? = some types)
    (hcursors : s'.cursors = update s.cursors s.index (s.cursors s.index + 1)) :
    remaining p s' < remaining p s := by
  obtain ⟨hcur, -⟩ := List.getElem?_eq_some_iff.1 htys
  have hlen := hs.length_le h s.index
  refine Finset.sum_lt_sum (fun f _ => ?_) ⟨s.index, Finset.mem_range.2 hidx, ?_⟩
  · rw [hcursors]
    rcases eq_or_ne f s.index with rfl | hne
    · rw [update_self]
      omega
    · rw [update_of_ne hne]
  · rw [hcursors, update_self]
    omega

theorem PassSound.measure_lt (h : KeepsLabels p) {s s' : InstantiationPass} (hs : PassSound p s)
    (hstep : instantiationStep p s = some s') : stepMeasure p s' < stepMeasure p s := by
  obtain ⟨hidx, -, rfl⟩ | ⟨types, hidx, htys, hwalk⟩ | ⟨hidx, hnew, rfl⟩ :=
    instantiationStep_cases hstep
  · have hsame : remaining p { s with index := s.index + 1 } = remaining p s := rfl
    rw [stepMeasure, stepMeasure, hsame]
    dsimp only
    omega
  · have hlt : remaining p s' < remaining p s := hs.remaining_lt h hidx htys (by rw [hwalk])
    obtain ⟨hnew, hsame⟩ : s'.isNew = true ∧ s'.index = s.index := by
      rw [hwalk]
      exact ⟨rfl, rfl⟩
    have hwalks : (2 * remaining p s' + if s'.isNew = true then 1 else 0) <
        2 * remaining p s + if s.isNew = true then 1 else 0 := by
      rw [if_pos hnew]
      omega
    rw [stepMeasure, stepMeasure, hsame]
    exact Nat.add_lt_add_right (Nat.mul_lt_mul_of_pos_right hwalks (Nat.succ_pos _)) _
  · have hsame : remaining p { s with index := 0, isNew := false } = remaining p s := rfl
    rw [stepMeasure, stepMeasure, hsame]
    simp only [hnew, if_true, Bool.false_eq_true, if_false, Nat.sub_zero, Nat.add_zero]
    have hexpand : (2 * remaining p s + 1) * (p.functions.length + 1) =
        2 * remaining p s * (p.functions.length + 1) + (p.functions.length + 1) := by ring
    omega

theorem exists_instantiationPass (h : KeepsLabels p) :
    ∃ fuel s, instantiationPass p fuel = some s := exists_runUntil (PassSound p) (stepMeasure p)
    (fun _ _ hs hstep => ⟨hs.step h hstep, hs.measure_lt h hstep⟩) (passSound_mainPass h)

/-! ### The emitted calls -/

theorem emittedCall_eq (h : KeepsLabels p) {st : InstantiationState} (hst : SoundState p st)
    {f : ℕ} {types : Binding} {entry : GenericCall × ℕ} (hvis : Visits p f (some types))
    (hent : entry ∈ (p.calls f).zipIdx) (hchk : CheckedCall p st f (some types) entry) :
    emittedCall p st f types entry = calledFrom p f (some types) entry.1 := by
  have hcall := mem_calls_of_mem_zipIdx hent
  have hform : emittedCallee st f types entry = entry.1.dispatch (some types) := by
    unfold emittedCallee
    split
    · rename_i callee hlook
      exact (hst.forms f entry types callee hent (mem_of_lookup_eq_some hlook)).symm
    · rfl
  unfold emittedCall calledFrom
  rw [hform]
  rcases hdisp : entry.1.dispatch (some types) with _ | callee
  · rfl
  · obtain ⟨hlabels, -⟩ := hchk callee hdisp
    have htys : entry.1.arguments.mapM
        (fun label => (resolveTypeArgument p f (some types) callee label).2) =
          some (entry.1.arguments.map fun label =>
            boundName p f types (normalLabel p f (p.isModule callee) label)) :=
      mapM_eq_some_map fun label hlab =>
        typeArgument_type h hvis hcall hdisp hlab
    dsimp only [map_some, bind_some]
    rw [htys, hlabels, map_map]
    rfl

/-- A call of one function, whatever is bound. -/
def callOf (callee : ℕ) (argument : String) : GenericCall where
  dispatch _ := some callee
  arguments := [bytes argument]

/-- Programs whose only type of the entry module is `Item`. -/
def itemProgram (functions : List GenericFunction)
    (h : ∀ function ∈ functions, ∀ call ∈ function.calls, ∀ binding callee,
      call.dispatch binding = some callee → callee < functions.length) : GenericProgram where
  functions := functions
  resolve _ label := if label = bytes ".Item" then bytes "Item" else label
  isEntryType label := label = bytes "Item"
  resolve_resolve _ label := by
    split
    · decide
    · rfl
  resolve_distinct _ label hentry := by
    obtain rfl : label = bytes "Item" := by simpa using hentry
    decide
  dispatch_lt := h

/-- `main` calls `wrap(Item)`, and `wrap(T generic)` calls `make(T)`. -/
def wrapItem : GenericProgram := itemProgram
    [⟨true, [], [callOf 1 "Item"]⟩, ⟨true, [bytes "T"], [callOf 2 "T"]⟩, ⟨true, [bytes "T"], []⟩]
    (by simp [callOf])

theorem isModule_wrapItem (f : ℕ) : wrapItem.isModule f = false := by
  rcases f with _ | _ | _ | f <;> rfl

theorem keepsLabels_wrapItem : KeepsLabels wrapItem := by
  refine ⟨fun _ _ _ callee _ _ _ _ _ _ _ hmod => ?_, fun _ _ _ _ callee callee' _ _ _ => ?_,
    fun f call label binding callee hcall hlab hslot _ => ?_⟩
  · rw [isModule_wrapItem] at hmod
    cases hmod
  · rw [isModule_wrapItem, isModule_wrapItem]
  · rcases f with _ | _ | _ | f
    · rfl
    · obtain rfl : call = callOf 2 "T" := mem_singleton.1 hcall
      obtain rfl : label = bytes "T" := mem_singleton.1 hlab
      exact absurd hslot (by decide)
    · cases hcall
    · cases hcall

/-- `wrap(T generic)`, which calls `make(i64)`, is never called. -/
def wrapNothing : GenericProgram := itemProgram
    [⟨true, [], []⟩, ⟨true, [bytes "T"], [callOf 2 "i64"]⟩, ⟨true, [bytes "T"], []⟩]
    (by simp [callOf])

/-- `main` calls `wrap(Item)` and `wrap(i64)`, and `wrap(T generic)` calls `make(T)` of another
module. -/
def wrapModule : GenericProgram := itemProgram
    [⟨true, [], [callOf 1 "Item", callOf 1 "i64"]⟩, ⟨true, [bytes "T"], [callOf 2 "T"]⟩,
      ⟨false, [bytes "T"], []⟩]
    (by simp [callOf])

theorem not_needed_wrapNothing (f : ℕ) (types : Binding) :
    ¬ Needed wrapNothing (PlainBody wrapNothing) f types := by
  intro hneeded
  induction hneeded with
  | @called f g call types hpl hcall _ =>
    rcases f with _ | _ | _ | f
    · cases hcall
    · cases hpl
    · cases hcall
    · cases hcall
  | instantiated _ _ _ ih => exact ih

end Grayscale
