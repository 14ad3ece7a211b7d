import Grayscale.Stdlib.HttpRequests
import Grayscale.Stdlib.PathCleaning

/-!
# Relative paths

`gray_path_relative_path`, and when the path that it gives leads from the base to the target.
-/

namespace Grayscale

open List
open List (cons.inj)

/-! ### The function -/

/-- `equal_ignoring_case`, on texts of one length. -/
def equalIgnoringCase (left right : Text) : Bool :=
  left.map (fun c => if isSeparator c then byte '/' else Http.tolower c) ==
    right.map (fun c => if isSeparator c then byte '/' else Http.tolower c)

/-- The loop that counts the elements in common. -/
def commonCount (ignoreCase : Bool) : List Text → List Text → ℕ
  | baseElement :: baseElements, targetElement :: targetElements =>
    if baseElement.length = targetElement.length ∧
        (if ignoreCase then equalIgnoringCase baseElement targetElement
          else baseElement == targetElement) = true then
      commonCount ignoreCase baseElements targetElements + 1
    else 0
  | _, _ => 0

/-- The loops that write elements, with separators between them. -/
def appendElements (buffer : Text) (elements : List Text) : Text :=
  elements.foldl (fun buffer element =>
    (if 0 < buffer.length then buffer ++ [pathNativeSeparator] else buffer) ++ element) buffer

/-- The path that is written: an element that leads up for each of the base that is left, and the
elements of the target that are left. -/
def relativeText (baseElements targetElements : List Text) : Text :=
  let buffer := appendElements [] (baseElements.map fun _ => bytes "..")
  let buffer := appendElements buffer targetElements
  if buffer.length = 0 then buffer ++ [byte '.'] else buffer

/-- `gray_path_relative_path`; `none` where an `int` overflows. -/
def grayPathRelativePath (base target : Text) : Option (Except String Text) :=
  if 2 ^ 31 ≤ base.length + 1 ∨ 2 ^ 31 ≤ target.length + 1 then none
  else
    let baseVolume := volumeLength base
    let targetVolume := volumeLength target
    let baseElements := (collectElements (base.drop baseVolume)).reverse
    let targetElements := (collectElements (target.drop targetVolume)).reverse
    let ignoreCase := decide (0 < baseVolume ∨ 0 < targetVolume)
    if baseVolume ≠ targetVolume ∨
        equalIgnoringCase (base.take baseVolume) (target.take baseVolume) = false then
      some (.error "path.relative_path: the paths have different roots")
    else if isRooted (base.drop baseVolume) ≠ isRooted (target.drop targetVolume) then
      some (.error "path.relative_path: only one of the paths is absolute")
    else
      let common := commonCount ignoreCase baseElements targetElements
      if (baseElements.drop common).any (· == bytes "..") then
        some (.error "path.relative_path: the base path cannot be resolved against the target")
      else
        (cInt (baseElements.length * 3)).bind fun capacity =>
          (cInt (capacity + target.length)).bind fun capacity =>
            (cInt (capacity + 2)).map fun _ =>
              .ok (relativeText (baseElements.drop common) (targetElements.drop common))

/-! ### The elements in common -/

/-- The elements of two paths behind those in common. -/
def stripCommon : List Text → List Text → List Text × List Text
  | b :: base, t :: target => if b = t then stripCommon base target else (b :: base, t :: target)
  | base, target => (base, target)

theorem drop_commonCount (base target : List Text) :
    (base.drop (commonCount false base target), target.drop (commonCount false base target)) =
      stripCommon base target := by
  induction base generalizing target with
  | nil => cases target <;> rfl
  | cons b base ih =>
    cases target with
    | nil => rfl
    | cons t target =>
      rw [commonCount, stripCommon]
      by_cases h : b = t
      · rw [if_pos ⟨by rw [h], by simpa using h⟩, if_pos h, drop_succ_cons, drop_succ_cons]
        exact ih target
      · rw [if_neg (by simpa using fun _ => h), if_neg h]
        rfl

theorem exists_common (base target : List Text) : ∃ common,
    base = common ++ (stripCommon base target).1 ∧
      target = common ++ (stripCommon base target).2 := by
  induction base generalizing target with
  | nil => exact ⟨[], by cases target <;> simp [stripCommon]⟩
  | cons b base ih =>
    cases target with
    | nil => exact ⟨[], rfl, rfl⟩
    | cons t target =>
      rw [stripCommon]
      split_ifs with h
      · obtain ⟨common, hbase, htgt⟩ := ih target
        exact ⟨b :: common, by rw [cons_append, ← hbase],
          by rw [cons_append, ← htgt, h]⟩
      · exact ⟨[], rfl, rfl⟩

/-! ### The path that is written -/

/-- The elements of the path that is written. -/
def relativeElements (base target : Text) : List Text :=
  replicate (stripCommon (cleanedElements base) (cleanedElements target)).1.length
    (bytes "..") ++ (stripCommon (cleanedElements base) (cleanedElements target)).2

theorem isName_of_mem_relativeElements {base target : Text} :
    ∀ e ∈ relativeElements base target, IsName e := by
  intro e he
  rcases mem_append.mp he with he | he
  · rw [eq_of_mem_replicate he]
    unfold IsName
    decide +kernel
  · obtain ⟨common, -, htgt⟩ := exists_common (cleanedElements base) (cleanedElements target)
    refine @isName_of_mem_cleaned target e ?_
    rw [htgt]
    exact mem_append_right _ he

theorem appendElements_eq {elements : List Text} (h : ∀ e ∈ elements, e ≠ []) (buffer : Text) :
    appendElements buffer elements =
      if buffer = [] then joinNative elements else joinNative (buffer :: elements) := by
  induction elements generalizing buffer with
  | nil =>
    split_ifs with hbuf
    · exact hbuf
    · exact intercalate_singleton.symm
  | cons e elements ih =>
    obtain ⟨he, h⟩ := forall_mem_cons.mp h
    have hstep : appendElements buffer (e :: elements) = appendElements
      ((if 0 < buffer.length then buffer ++ [pathNativeSeparator] else buffer) ++ e) elements := rfl
    rw [hstep, ih h, if_neg (append_ne_nil_of_right_ne_nil _ he)]
    split_ifs with hpos hbuf hbuf
    · rw [hbuf] at hpos
      exact absurd hpos (by decide)
    · rw [joinNative_append_cons, joinNative_cons_cons, append_assoc, singleton_append]
    · rw [hbuf, nil_append]
    · exact absurd (eq_nil_of_length_eq_zero (Nat.eq_zero_of_not_pos hpos)) hbuf

theorem relativeText_eq (base target : Text) :
    relativeText (stripCommon (cleanedElements base) (cleanedElements target)).1
        (stripCommon (cleanedElements base) (cleanedElements target)).2 =
      renderPath false (relativeElements base target) := by
  have hnam : ∀ e ∈ relativeElements base target, e ≠ [] :=
    fun e he => (isName_of_mem_relativeElements e he).1
  have happend (buffer : Text) (l m : List Text) :
      appendElements (appendElements buffer l) m = appendElements buffer (l ++ m) :=
    foldl_append.symm
  rw [relativeText, happend, map_const', ← relativeElements, appendElements_eq hnam,
    if_pos rfl, renderPath]
  simp only [length_eq_zero_iff, and_true, Bool.false_eq_true, if_false, nil_append]
  by_cases hemp : relativeElements base target = []
  · rw [if_pos hemp, hemp]
    rfl
  · have hjoin := length_joinNative hemp
    have hne : joinNative (relativeElements base target) ≠ [] := by
      obtain ⟨e, elements, he⟩ := exists_cons_of_ne_nil hemp
      have hpos := length_pos_of_ne_nil (hnam e (he ▸ mem_cons_self))
      rw [he]
      cases elements with
      | nil =>
        rw [joinNative, intercalate_singleton]
        exact ne_nil_of_length_pos hpos
      | cons next elements =>
        rw [joinNative_cons_cons]
        exact append_ne_nil_of_left_ne_nil (ne_nil_of_length_pos hpos) _
    rw [if_neg hne, if_neg hemp]

/-- The base with the path that is written behind it. -/
def behindBase (base target : Text) : Text :=
  base ++ pathNativeSeparator :: renderPath false (relativeElements base target)

section Behind

variable {base target : Text}

theorem isRooted_behindBase (hbase : base ≠ []) :
    isRooted (behindBase base target) = isRooted base := isRooted_append hbase _

theorem volume_behindBase (hbase : base ≠ []) (hvol : volumeLength base = 0)
    (hshr : ¬ StartsWithShare (behindBase base target)) :
    volumeLength (behindBase base target) = 0 := by
  refine volume_eq_zero ?_ hshr
  rintro ⟨letter, rest, hpath, hlet⟩
  rw [behindBase] at hpath
  rcases base with _ | ⟨a, _ | ⟨b, base⟩⟩
  · exact absurd rfl hbase
  · have htail := (cons.inj hpath).2
    exact absurd (cons.inj htail).1 (by decide)
  · obtain ⟨rfl, htail⟩ := cons.inj hpath
    obtain ⟨rfl, -⟩ := cons.inj htail
    rw [volume_of_isDrive ⟨a, base, rfl, hlet⟩] at hvol
    exact absurd hvol (by decide)

theorem cleaned_of_volume {path : Text} (h : volumeLength path = 0) : cleanedElements path =
      LexicalPath.resolve (bytes "..") (isRooted path) (pathElements path) := by
  rw [cleanedElements, h, drop_zero]

theorem cleanPath_behindBase (hbase : base ≠ []) (hbaseVolume : volumeLength base = 0)
    (htargetVolume : volumeLength target = 0) (hroot : isRooted base = isRooted target)
    (hup : bytes ".." ∉ (stripCommon (cleanedElements base) (cleanedElements target)).1)
    (htgt : target.length + 1 < 2 ^ 31) (hlen : (behindBase base target).length + 1 < 2 ^ 31)
    (hshr : ¬ StartsWithShare (behindBase base target)) :
    cleanPath (behindBase base target) = cleanPath target := by
  obtain ⟨common, hcommonBase, hcommonTarget⟩ :=
    exists_common (cleanedElements base) (cleanedElements target)
  have hnorm := isNormal_cleaned target
  rw [htargetVolume, drop_zero, ← hroot] at hnorm
  have hels : pathElements (behindBase base target) =
      pathElements base ++ relativeElements base target := by
    rw [behindBase, elements_append isSeparator_native,
      elements_renderPath isName_of_mem_relativeElements]
  have hres := LexicalPath.resolve_relative
    ((cleaned_of_volume hbaseVolume).symm.trans hcommonBase) hup (hcommonTarget ▸ hnorm)
  rw [← hcommonTarget, ← relativeElements] at hres
  rw [cleanPath_eq (volume_behindBase hbase hbaseVolume hshr) hlen,
    cleanPath_eq htargetVolume htgt, isRooted_behindBase hbase, hels, hres,
    cleaned_of_volume htargetVolume, hroot]

end Behind

/-! ### Servers and shares -/

/-- The base is the root and the target has two elements or more, the first of which does not start
with a dot; or the base is two separators and a name that does not start with a dot. -/
def BecomesShare (base target : Text) : Prop :=
  (∃ s, base = [s] ∧ isSeparator s = true ∧ ∃ first second more,
      cleanedElements target = first :: second :: more ∧ first.head? ≠ some (byte '.')) ∨
    ∃ s₁ s₂ server, base = s₁ :: s₂ :: server ∧ isSeparator s₁ = true ∧ isSeparator s₂ = true ∧
      server ≠ [] ∧ (∀ c ∈ server, isSeparator c = false) ∧ server.head? ≠ some (byte '.')

theorem name_or_separator (path : Text) : (∀ c ∈ path, isSeparator c = false) ∨
    ∃ name s rest, path = name ++ s :: rest ∧ (∀ c ∈ name, isSeparator c = false) ∧
      isSeparator s = true := by
  obtain ⟨rest, hpath, hname, hrest⟩ := exists_takeName path
  cases rest with
  | nil =>
    rw [append_nil] at hpath
    exact .inl (hpath ▸ hname)
  | cons s rest => exact .inr ⟨takeName path, s, rest, hpath, hname, hrest s rfl⟩

theorem name_unique {l m : Text} {s t : UInt8} {rest behind : Text}
    (hl : ∀ c ∈ l, isSeparator c = false) (hm : ∀ c ∈ m, isSeparator c = false)
    (hs : isSeparator s = true) (ht : isSeparator t = true)
    (h : l ++ s :: rest = m ++ t :: behind) : l = m ∧ rest = behind := by
  have hleft : takeName (l ++ s :: rest) = l := takeName_append hl (by simpa using hs)
  have hrgt : takeName (m ++ t :: behind) = m := takeName_append hm (by simpa using ht)
  obtain rfl : l = m := by rw [← hleft, h, hrgt]
  exact ⟨rfl, (cons.inj (append_cancel_left h)).2⟩

theorem exists_cons_renderPath {elements : List Text} (hnam : ∀ e ∈ elements, IsName e) :
    ∃ c rest, renderPath false elements = c :: rest ∧ isSeparator c = false := by
  cases elements with
  | nil => exact ⟨byte '.', [], rfl, by decide⟩
  | cons e elements =>
    obtain ⟨hne, -, hname⟩ := hnam e mem_cons_self
    obtain ⟨c, e, rfl⟩ := exists_cons_of_ne_nil hne
    have hjoin := joinNative_append_cons [c] e elements
    rw [renderPath, if_neg fun h => cons_ne_nil _ _ h.1]
    exact ⟨c, joinNative (e :: elements), hjoin, hname c mem_cons_self⟩

theorem relativeElements_of_root {s : UInt8} (hs : isSeparator s = true) (target : Text) :
    relativeElements [s] target = cleanedElements target := by
  have hvol : volumeLength [s] = 0 := by
    rw [volumeLength]
    simp
  have hroot : cleanedElements [s] = [] := by
    rw [cleaned_of_volume hvol, elements_cons hs]
    rfl
  rw [relativeElements, hroot]
  cases cleanedElements target <;> rfl

section Share

variable {base target : Text}

theorem share_of_becomesShare (h : BecomesShare base target) :
    StartsWithShare (behindBase base target) := by
  rcases h with ⟨s, rfl, hs, first, second, more, hels, hdot⟩ |
    ⟨s₁, s₂, server, rfl, hs₁, hs₂, hne, hname, hdot⟩
  · have hnam := hels ▸ @isName_of_mem_cleaned target
    obtain ⟨hfst, hnam⟩ := forall_mem_cons.mp hnam
    obtain ⟨hsnd, -⟩ := forall_mem_cons.mp hnam
    have hjoin := joinNative_append_cons second [] more
    rw [append_nil] at hjoin
    refine ⟨s, pathNativeSeparator, first, pathNativeSeparator, second,
      by simp [hs, isSeparator_native], ?_, hdot, joinNative ([] :: more), ?_⟩
    · simp only [forall_mem_cons, not_mem_nil, false_imp_iff, implies_true, and_true]
      exact ⟨⟨hfst.1, hfst.2.2⟩, hsnd.1, hsnd.2.2⟩
    · rw [behindBase, relativeElements_of_root hs, hels, renderPath,
        if_neg fun h => cons_ne_nil _ _ h.1, joinNative_cons_cons, hjoin]
      simp
  · obtain ⟨c, rest, hren, hc⟩ := exists_cons_renderPath
      (@isName_of_mem_relativeElements (s₁ :: s₂ :: server) target)
    refine ⟨s₁, s₂, server, pathNativeSeparator, [c], by simp [hs₁, hs₂, isSeparator_native], ?_,
      hdot, rest, ?_⟩
    · simp only [forall_mem_cons, not_mem_nil, false_imp_iff, implies_true, and_true]
      exact ⟨⟨hne, hname⟩, cons_ne_nil _ _, hc⟩
    · rw [behindBase, hren]
      simp

theorem becomesShare_of_share (hbase : base ≠ []) (hvol : volumeLength base = 0)
    (h : StartsWithShare (behindBase base target)) : BecomesShare base target := by
  have hnotShare : ¬ StartsWithShare base := by
    intro hshr
    obtain ⟨s₁, s₂, server, s₃, share, rest, -, -, -, -, -, hlong⟩ := volume_of_share hshr
    rw [hvol] at hlong
    simp at hlong
  obtain ⟨s₁, s₂, server, s₃, share, hseps, hnam, hdot, after, hpath⟩ := h
  simp only [forall_mem_cons, not_mem_nil, false_imp_iff, implies_true, and_true]
    at hseps hnam
  obtain ⟨hs₁, hs₂, hs₃⟩ := hseps
  obtain ⟨⟨hserver, hserv⟩, hshr, hshareName⟩ := hnam
  simp only [cons_append, append_assoc] at hpath
  rw [behindBase] at hpath
  rcases base with _ | ⟨a, _ | ⟨b, base⟩⟩
  · exact absurd rfl hbase
  · obtain ⟨rfl, htail⟩ := cons.inj hpath
    obtain ⟨-, hren⟩ := cons.inj htail
    rw [relativeElements_of_root hs₁] at hren
    refine .inl ⟨s₁, rfl, hs₁, ?_⟩
    have hnam := @isName_of_mem_cleaned target
    generalize cleanedElements target = elements at hren hnam
    rcases elements with _ | ⟨first, _ | ⟨second, more⟩⟩
    · have hlens := congrArg List.length hren
      have hpos := length_pos_of_ne_nil hserver
      simp [renderPath] at hlens
      omega
    · have he : renderPath false [first] = first := by
        rw [renderPath, if_neg fun h => cons_ne_nil _ _ h.1, joinNative, intercalate_singleton]
        rfl
      rw [he] at hren
      have hs₃' := (hnam first mem_cons_self).2.2 s₃ (by rw [← hren]; simp)
      exact absurd (hs₃.symm.trans hs₃') (by decide)
    · refine ⟨first, second, more, rfl, ?_⟩
      rw [renderPath, if_neg fun h => cons_ne_nil _ _ h.1, joinNative_cons_cons] at hren
      have hfst := (hnam first mem_cons_self).2.2
      rw [← (name_unique hserv hfst hs₃ isSeparator_native hren).1]
      exact hdot
  · obtain ⟨rfl, htail⟩ := cons.inj hpath
    obtain ⟨rfl, hbeh⟩ := cons.inj htail
    refine .inr ⟨s₁, s₂, base, rfl, hs₁, hs₂, ?_⟩
    rcases name_or_separator base with hbaseName | ⟨name, s, rest, rfl, hname, hs⟩
    · obtain ⟨rfl, -⟩ := name_unique hserv hbaseName hs₃ isSeparator_native hbeh
      exact ⟨hserver, hserv, hdot⟩
    · -- the share would start in the base
      obtain ⟨rfl, hrest⟩ := name_unique hserv hname hs₃ hs
        (hbeh.trans (append_assoc name (s :: rest) _))
      obtain ⟨c, share, rfl⟩ := exists_cons_of_ne_nil hshr
      have hc : isSeparator c = false := hshareName c mem_cons_self
      cases rest with
      | nil =>
        have hfst := (cons.inj hrest).1
        rw [hfst] at hc
        exact absurd hc (by decide)
      | cons d rest =>
        obtain ⟨rfl, -⟩ := cons.inj hrest
        refine absurd ⟨s₁, s₂, server, s, [c], by simp [hs₁, hs₂, hs], ?_, hdot, rest, ?_⟩ hnotShare
        · simp only [forall_mem_cons, not_mem_nil, false_imp_iff, implies_true, and_true]
          exact ⟨⟨hserver, hserv⟩, cons_ne_nil _ _, hc⟩
        · simp

theorem share_iff (hbase : base ≠ []) (hvol : volumeLength base = 0) :
    StartsWithShare (behindBase base target) ↔ BecomesShare base target :=
  ⟨becomesShare_of_share hbase hvol, share_of_becomesShare⟩

end Share

/-! ### Leading back -/

/-- No path is given: one of the paths is rooted and the other is not, or an element of the base
that leads up is left. -/
def HasNoRelative (base target : Text) : Prop := isRooted base ≠ isRooted target ∨
    bytes ".." ∈ (stripCommon (cleanedElements base) (cleanedElements target)).1

/-- The function fails exactly when no path is given, and the base with the path that it gives
behind it is normalized to what the target is normalized to. -/
def LeadsBack (base target : Text) : Prop :=
  (∃ message, grayPathRelativePath base target = some (.error message) ∧
      HasNoRelative base target) ∨
    ∃ relative path, grayPathRelativePath base target = some (.ok relative) ∧
      ¬ HasNoRelative base target ∧
      cleanPath (base ++ pathNativeSeparator :: relative) = some path ∧ cleanPath target = some path

/-- The lengths that the function and the normalizations need are `int`s. -/
def RelativeFits (base target : Text) : Prop :=
  (cleanedElements base).length * 3 + target.length + 2 < 2 ^ 31 ∧
    (behindBase base target).length + 1 < 2 ^ 31

instance (base target : Text) : Decidable (HasNoRelative base target) :=
  inferInstanceAs (Decidable (_ ∨ _))

theorem grayPathRelativePath_eq {base target : Text} (hbase : volumeLength base = 0)
    (htgt : volumeLength target = 0) : (¬ (base.length + 1 < 2 ^ 31 ∧ target.length + 1 < 2 ^ 31) ∧
        grayPathRelativePath base target = none) ∨
      (base.length + 1 < 2 ^ 31 ∧ target.length + 1 < 2 ^ 31) ∧ ((HasNoRelative base target ∧
            ∃ message, grayPathRelativePath base target = some (.error message)) ∨
          (¬ HasNoRelative base target ∧ grayPathRelativePath base target =
            if (cleanedElements base).length * 3 + target.length + 2 < 2 ^ 31 then
              some (.ok (renderPath false (relativeElements base target)))
            else none)) := by
  by_cases hlens : base.length + 1 < 2 ^ 31 ∧ target.length + 1 < 2 ^ 31
  swap
  · refine .inl ⟨hlens, ?_⟩
    rw [grayPathRelativePath, if_pos (by omega)]
  refine .inr ⟨hlens, ?_⟩
  have hbaseElements : (collectElements base).reverse = cleanedElements base := by
    rw [collectElements_eq, cleaned_of_volume hbase]
  have htargetElements : (collectElements target).reverse = cleanedElements target := by
    rw [collectElements_eq, cleaned_of_volume htgt]
  have hstrip := drop_commonCount (cleanedElements base) (cleanedElements target)
  have hsame : equalIgnoringCase (base.take 0) (target.take 0) = true := rfl
  rw [grayPathRelativePath, if_neg (by omega)]
  simp only [hbase, htgt, drop_zero, hbaseElements, htargetElements, hsame, ne_eq,
    not_true_eq_false, Bool.true_eq_false, or_false, if_false, lt_irrefl, decide_false]
  rw [(Prod.mk.inj hstrip).1, (Prod.mk.inj hstrip).2]
  by_cases hroot : isRooted base = isRooted target
  swap
  · rw [if_pos hroot]
    exact .inl ⟨.inl hroot, _, rfl⟩
  rw [if_neg (not_not_intro hroot)]
  have hany : ((stripCommon (cleanedElements base) (cleanedElements target)).1.any
      (· == bytes "..")) = true ↔
        bytes ".." ∈ (stripCommon (cleanedElements base) (cleanedElements target)).1 := by simp
  by_cases hup : bytes ".." ∈ (stripCommon (cleanedElements base) (cleanedElements target)).1
  · rw [if_pos (hany.mpr hup)]
    exact .inl ⟨.inr hup, _, rfl⟩
  · rw [if_neg (mt hany.mp hup), relativeText_eq]
    refine .inr ⟨fun h => h.elim (fun h => h hroot) hup, ?_⟩
    by_cases hfst : (cleanedElements base).length * 3 < 2 ^ 31
    · by_cases hsnd : (cleanedElements base).length * 3 + target.length < 2 ^ 31
      · by_cases hthd : (cleanedElements base).length * 3 + target.length + 2 < 2 ^ 31
        · rw [cInt_of (by omega) (by omega), Option.bind_some, cInt_of (by omega) (by omega),
            Option.bind_some, cInt_of (by omega) (by omega), if_pos hthd]
          rfl
        · rw [cInt_of (by omega) (by omega), Option.bind_some, cInt_of (by omega) (by omega),
            Option.bind_some, cInt, if_neg (by omega), if_neg hthd]
          rfl
      · rw [cInt_of (by omega) (by omega), Option.bind_some, cInt, if_neg (by omega),
          if_neg (by omega)]
        rfl
    · rw [cInt, if_neg (by omega), if_neg (by omega)]
      rfl

theorem cleanPath_ne_of_share {path target result : Text} (h : StartsWithShare path)
    (hres : cleanPath path = some result) (htgt : volumeLength target = 0) :
    cleanPath target ≠ some result := by
  intro htargetPath
  obtain ⟨s₁, s₂, server, s₃, share, rest, -, hnam, -, -, -, hlong⟩ :=
    volume_of_share (share_cleanPath h hres)
  have hmem : ∀ e ∈ LexicalPath.resolve (bytes "..") (isRooted target) (pathElements target),
      IsName e := fun e he => forall_mem_elements e (LexicalPath.mem_of_mem_resolve he)
  rw [cleanPath_eq htgt (length_lt_of_cleanPath htargetPath), Option.some.injEq] at htargetPath
  rw [← htargetPath] at hlong
  simp only [length_cons, length_append] at hlong
  rcases volume_renderPath hmem (isRooted target) with hzero | ⟨e, he, heq⟩
  · omega
  · have hle := volume_name_le (hmem e (mem_of_mem_head? he)).2.2
    omega

theorem leadsBack_iff (base target : Text) (hne : base ≠ []) (hbase : volumeLength base = 0)
    (htarget : volumeLength target = 0) :
    LeadsBack base target ↔ base.length + 1 < 2 ^ 31 ∧ target.length + 1 < 2 ^ 31 ∧
      (HasNoRelative base target ∨ RelativeFits base target ∧ ¬ BecomesShare base target) := by
  rcases grayPathRelativePath_eq hbase htarget with ⟨hlens, hnone⟩ |
    ⟨⟨hbaseLength, htargetLength⟩, ⟨hno, message, hmsg⟩ | ⟨hno, hgives⟩⟩
  · refine iff_of_false ?_ fun h => hlens ⟨h.1, h.2.1⟩
    rintro (⟨_, h, -⟩ | ⟨_, _, h, -⟩)
    · rw [hnone] at h
      cases h
    · rw [hnone] at h
      cases h
  · exact iff_of_true (.inl ⟨message, hmsg, hno⟩) ⟨hbaseLength, htargetLength, .inl hno⟩
  · have hroot : isRooted base = isRooted target := not_not.mp fun h => hno (.inl h)
    rw [and_iff_right hbaseLength, and_iff_right htargetLength, or_iff_right hno]
    have hsh := @share_iff base target hne hbase
    by_cases hcap : (cleanedElements base).length * 3 + target.length + 2 < 2 ^ 31
    swap
    · refine iff_of_false ?_ fun h => hcap h.1.1
      rw [if_neg hcap] at hgives
      rintro (⟨_, h, -⟩ | ⟨_, _, h, -⟩)
      · rw [hgives] at h
        cases h
      · rw [hgives] at h
        cases h
    rw [if_pos hcap] at hgives
    constructor
    · rintro (⟨_, -, h⟩ | ⟨relative, path, hrelative, -, hpath, htgt⟩)
      · exact absurd h hno
      · rw [hgives, Option.some.injEq, Except.ok.injEq] at hrelative
        subst hrelative
        refine ⟨⟨hcap, length_lt_of_cleanPath hpath⟩, fun hbec => ?_⟩
        exact cleanPath_ne_of_share (hsh.mpr hbec) hpath htarget htgt
    · rintro ⟨⟨-, hlen⟩, hbec⟩
      have hclean := cleanPath_behindBase hne hbase htarget hroot (fun h => hno (.inr h))
        htargetLength hlen (mt hsh.mp hbec)
      have htgt := cleanPath_eq htarget htargetLength
      exact .inr ⟨_, _, hgives, hno, hclean.trans htgt, htgt⟩

theorem leadsBack_up : LeadsBack (bytes "/usr/lib") (bytes "/usr/bin") ↔
      (bytes "/usr/lib").length + 1 < 2 ^ 31 ∧ (bytes "/usr/bin").length + 1 < 2 ^ 31 ∧
        (HasNoRelative (bytes "/usr/lib") (bytes "/usr/bin") ∨
          RelativeFits (bytes "/usr/lib") (bytes "/usr/bin") ∧
            ¬ BecomesShare (bytes "/usr/lib") (bytes "/usr/bin")) :=
  leadsBack_iff (bytes "/usr/lib") (bytes "/usr/bin") (by decide) (by decide) (by decide)

/-- The separator behind the root makes the path a server and a share. -/
theorem not_leadsBack_root : bytes "/" ≠ [] ∧ volumeLength (bytes "/") = 0 ∧
    volumeLength (bytes "/a/b") = 0 ∧ ¬ LeadsBack (bytes "/") (bytes "/a/b") := by
  have hno : ¬ HasNoRelative (bytes "/") (bytes "/a/b") := by decide
  refine ⟨by decide, by decide, by decide, ?_⟩
  rintro (⟨_, -, h⟩ | ⟨relative, path, hrelative, -, hpath, htgt⟩)
  · exact hno h
  rcases grayPathRelativePath_eq (show volumeLength (bytes "/") = 0 by decide)
    (show volumeLength (bytes "/a/b") = 0 by decide) with ⟨h, -⟩ | ⟨-, ⟨h, -⟩ | ⟨-, hgives⟩⟩
  · exact h (by decide)
  · exact hno h
  · rw [if_pos (by decide), hrelative, Option.some.injEq, Except.ok.injEq] at hgives
    subst hgives
    have hbec : BecomesShare (bytes "/") (bytes "/a/b") :=
      .inl ⟨byte '/', rfl, rfl, bytes "a", bytes "b", [], by decide, by decide⟩
    exact cleanPath_ne_of_share (share_of_becomesShare hbec) hpath
      (by decide) htgt

end Grayscale
