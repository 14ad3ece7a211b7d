import Grayscale.Stdlib.Path
import Mathlib.Algebra.Order.BigOperators.Group.List
import Mathlib.Algebra.Order.Ring.Nat

/-!
# Cleaning paths

`clean_path`, and when what it gives is cleaned to itself: an element that comes to stand at the
front may be read as a drive letter.
-/

namespace Grayscale

open List
open Option (some.inj some.injEq)

/-! ### What is written -/

/-- The elements of a name: no separator, not empty and not `.`. -/
def IsName (e : Text) : Prop := e ≠ [] ∧ e ≠ bytes "." ∧ ∀ c ∈ e, isSeparator c = false

def nativePrefix (path : Text) : Text :=
  (path.take (volumeLength path)).map fun c => if isSeparator c then pathNativeSeparator else c

/-- What is left of the elements behind the prefix. -/
def cleanedElements (path : Text) : List Text :=
  LexicalPath.resolve (bytes "..") (isRooted (path.drop (volumeLength path)))
    (pathElements (path.drop (volumeLength path)))

variable {path : Text}

theorem isName_of_mem_cleaned : ∀ e ∈ cleanedElements path, IsName e :=
  fun e he => forall_mem_elements e (LexicalPath.mem_of_mem_resolve he)

variable {rest : Text}

theorem volume_share {s₁ s₂ s₃ : UInt8} {server share : Text}
    (hseps : ∀ s ∈ [s₁, s₂, s₃], isSeparator s = true)
    (hnam : ∀ name ∈ [server, share], name ≠ [] ∧ ∀ c ∈ name, isSeparator c = false)
    (hdot : server.head? ≠ some (byte '.')) (hrest : ∀ c ∈ rest.head?, isSeparator c = true) :
    volumeLength (s₁ :: s₂ :: (server ++ s₃ :: share) ++ rest) =
      (s₁ :: s₂ :: (server ++ s₃ :: share)).length := by
  obtain ⟨t₁, t₂, server', t₃, share', rest', hseps', hnam', -, hrest', hpath, hvol⟩ :=
    volume_of_share
      ⟨s₁, s₂, server, s₃, share, hseps, hnam, hdot, prefix_append _ rest⟩
  simp only [forall_mem_cons] at hseps hseps' hnam hnam'
  rw [hvol]
  simp only [cons_append, append_assoc, List.cons.injEq] at hpath
  obtain ⟨-, -, hpath⟩ := hpath
  have hserver : takeName (server ++ s₃ :: (share ++ rest)) = server :=
    takeName_append hnam.1.2 (by simpa using hseps.2.2.1)
  have hserver' : takeName (server' ++ t₃ :: (share' ++ rest')) = server' :=
    takeName_append hnam'.1.2 (by simpa using hseps'.2.2.1)
  obtain rfl : server = server' := by rw [← hserver, hpath, hserver']
  have hbeh := (List.cons.inj (append_cancel_left hpath)).2
  have hshr : share = share' := by
    rw [← takeName_append hnam.2.1.2 hrest, ← takeName_append hnam'.2.1.2 hrest', hbeh]
  rw [hshr]
  simp only [length_cons, length_append]

theorem volume_cases (path : Text) : volumeLength path = 0 ∨
    (∃ letter rest, path = letter :: byte ':' :: rest ∧ isalpha letter = true ∧
      volumeLength path = 2) ∨
    ∃ s₁ s₂ server s₃ share rest, (∀ s ∈ [s₁, s₂, s₃], isSeparator s = true) ∧
      (∀ name ∈ [server, share], name ≠ [] ∧ ∀ c ∈ name, isSeparator c = false) ∧
      server.head? ≠ some (byte '.') ∧ (∀ c ∈ rest.head?, isSeparator c = true) ∧
      path = s₁ :: s₂ :: (server ++ s₃ :: share) ++ rest ∧
      volumeLength path = (s₁ :: s₂ :: (server ++ s₃ :: share)).length := by
  by_cases hdrv : IsDrive path
  · obtain ⟨letter, rest, rfl, hlet⟩ := hdrv
    exact .inr (.inl ⟨letter, rest, rfl, hlet, volume_of_isDrive ⟨_, _, rfl, hlet⟩⟩)
  · by_cases hshr : StartsWithShare path
    · exact .inr (.inr (volume_of_share hshr))
    · exact .inl (volume_eq_zero hdrv hshr)

theorem isRooted_behind_share (hvol : 2 < volumeLength path) :
    path.drop (volumeLength path) = [] ∨ isRooted (path.drop (volumeLength path)) = true := by
  rcases volume_cases path with hzero | ⟨_, _, -, -, htwo⟩ | ⟨s₁, s₂, server, s₃, share, rest,
    -, -, -, hrest, hpath, hlong⟩
  · omega
  · omega
  · have hdrop : path.drop (volumeLength path) = rest := by
      conv_lhs => rw [hlong, hpath]
      exact drop_left
    rw [hdrop]
    cases rest with
    | nil => exact .inl rfl
    | cons c rest => exact .inr (by simp [isRooted, hrest c rfl])

theorem cleaned_eq_nil (h : path.drop (volumeLength path) = []) : cleanedElements path = [] := by
  rw [cleanedElements, h]
  decide

theorem cleanPath_eq_render (hlen : path.length + 1 < 2 ^ 31) :
    cleanPath path = some (nativePrefix path ++
      renderPath (isRooted (path.drop (volumeLength path)) || decide (2 < volumeLength path))
        (cleanedElements path)) := by
  rw [cleanPath, if_neg (Nat.not_le.mpr hlen)]
  simp only [collectElements_eq, length_eq_zero_iff]
  rw [← cleanedElements, ← nativePrefix, renderPath]
  cases hrooted : isRooted (path.drop (volumeLength path)) with
  | true => simp [joinNative, append_assoc]
  | false =>
    by_cases hvol : 2 < volumeLength path
    · -- nothing is behind the share
      have hemp := cleaned_eq_nil
        ((isRooted_behind_share hvol).resolve_right (by rw [hrooted]; exact Bool.false_ne_true))
      simp [hemp, hvol, joinNative]
    · by_cases hemp : cleanedElements path = []
      · simp [hemp, hvol]
      · simp [hemp, hvol, joinNative]

/-! ### What is written is cleaned to itself -/

/-- The part behind the prefix is what is written for names that lead up at most in front, and not
above a root. -/
def IsCanonical (path : Text) : Prop :=
  ∃ rooted elements, path.drop (volumeLength path) = renderPath rooted elements ∧
    (∀ e ∈ elements, IsName e) ∧ LexicalPath.IsNormal (bytes "..") rooted elements.reverse

theorem isNormal_cleaned (path : Text) : LexicalPath.IsNormal (bytes "..")
    (isRooted (path.drop (volumeLength path))) (cleanedElements path).reverse := by
  rw [cleanedElements, LexicalPath.resolve, reverse_reverse]
  exact LexicalPath.isNormal_nil.foldl _

theorem cleanPath_of_isCanonical (hlen : path.length + 1 < 2 ^ 31)
    (hcanon : IsCanonical path) (hfro : nativePrefix path = path.take (volumeLength path))
    (hshr : 2 < volumeLength path → isRooted (path.drop (volumeLength path)) = true) :
    cleanPath path = some path := by
  obtain ⟨rooted, elements, hrest, hnam, hnorm⟩ := hcanon
  have hrooted := isRooted_renderPath hnam rooted
  have hels := elements_renderPath hnam rooted
  rw [cleanPath_eq_render hlen, hfro, cleanedElements, hrest, hels, hrooted, hnorm.resolve_eq]
  rw [hrest, hrooted] at hshr
  have hsame : (rooted || decide (2 < volumeLength path)) = rooted := by
    by_cases hlong : 2 < volumeLength path
    · rw [hshr hlong, Bool.true_or]
    · rw [decide_eq_false hlong, Bool.or_false]
  rw [hsame, ← hrest, take_append_drop]

/-! ### The length -/

/-- The bytes of elements with a separator for each. -/
def elementsLength (elements : List Text) : ℕ := (elements.map fun e => e.length + 1).sum

variable {elements : List Text}

theorem length_joinNative (hne : elements ≠ []) :
    (joinNative elements).length + 1 = elementsLength elements := by
  induction elements with
  | nil => exact absurd rfl hne
  | cons e elements ih =>
    cases elements with
    | nil => rw [joinNative, intercalate_singleton]; simp [elementsLength]
    | cons next elements =>
      rw [joinNative_cons_cons, length_append, length_cons, ih (cons_ne_nil _ _)]
      simp only [elementsLength, map_cons, sum_cons]
      omega

theorem elementsLength_le_of_sublist {l m : List Text} (h : l.Sublist m) :
    elementsLength l ≤ elementsLength m := (h.map _).sum_le_sum fun _ _ => Nat.zero_le _

theorem resolve_sublist (rooted : Bool) (l : List Text) :
    (LexicalPath.resolve (bytes "..") rooted l).Sublist l := by
  have hpush (stack : List Text) (x : Text) :
      (LexicalPath.push (bytes "..") rooted stack x).Sublist (x :: stack) := by
    by_cases hx : x = bytes ".."
    · rw [LexicalPath.push.eq_def, if_pos hx]
      cases stack with
      | nil =>
        simp only
        split_ifs
        · exact nil_sublist _
        · rw [hx]
      | cons top rest =>
        simp only
        split_ifs
        · exact sublist_cons_self _ _
        · rw [hx]
        · exact ((sublist_cons_self _ _).trans (sublist_cons_self _ _))
    · rw [LexicalPath.push_of_ne hx]
  have hfold (l stack : List Text) :
      (l.foldl (LexicalPath.push (bytes "..") rooted) stack).Sublist (l.reverse ++ stack) := by
    induction l generalizing stack with
    | nil => exact List.Sublist.refl _
    | cons x l ih =>
      rw [foldl_cons, reverse_cons, append_assoc, singleton_append]
      exact (ih _).trans ((List.Sublist.refl _).append (hpush stack x))
  have h := (hfold l []).reverse
  rwa [append_nil, reverse_reverse] at h

theorem elementsLength_splitOnP (path : Text) :
    elementsLength (path.splitOnP isSeparator) = path.length + 1 := by
  induction path with
  | nil => rfl
  | cons c path ih =>
    obtain ⟨first, pieces, hpcs⟩ := exists_cons_of_ne_nil (splitOnP_ne_nil isSeparator path)
    rw [hpcs] at ih
    rw [splitOnP_cons_eq_if_modifyHead, hpcs]
    simp only [elementsLength, map_cons, sum_cons] at ih
    split_ifs
    · simp only [elementsLength, map_cons, sum_cons, length_nil, length_cons]
      omega
    · simp only [elementsLength, modifyHead_cons, map_cons, sum_cons, length_cons]
      omega

theorem elementsLength_elements_le (path : Text) :
    elementsLength (pathElements path) + (if isRooted path then 1 else 0) ≤ path.length + 1 := by
  have hle (l : Text) : elementsLength (pathElements l) ≤ l.length + 1 :=
    (elementsLength_le_of_sublist filter_sublist).trans (elementsLength_splitOnP l).le
  split_ifs with hrooted
  · cases path with
    | nil => exact absurd hrooted (by decide)
    | cons c path =>
      have hc : isSeparator c = true := by simpa [isRooted] using hrooted
      rw [elements_cons hc, length_cons]
      exact Nat.succ_le_succ (hle path)
  · exact hle path

variable {rooted : Bool}

theorem length_renderPath_le (hrooted : isRooted rest = rooted) :
    (renderPath rooted (LexicalPath.resolve (bytes "..") rooted (pathElements rest))).length ≤
      max rest.length 1 := by
  have hsublist := elementsLength_le_of_sublist (resolve_sublist rooted (pathElements rest))
  have hle := elementsLength_elements_le rest
  rw [renderPath]
  rw [hrooted] at hle
  by_cases hemp : LexicalPath.resolve (bytes "..") rooted (pathElements rest) = []
  · rw [hemp]
    cases rooted with
    | true => exact le_max_right _ _
    | false => exact le_max_right _ _
  · have hjoin := length_joinNative hemp
    rw [if_neg fun h => hemp h.1, length_append]
    cases rooted with
    | true =>
      simp only [if_true, length_singleton] at hle ⊢
      omega
    | false =>
      simp only [Bool.false_eq_true, if_false, length_nil] at hle ⊢
      omega

theorem volume_le (path : Text) : volumeLength path ≤ path.length := by
  rcases volume_cases path with hzero | ⟨letter, rest, hpath, -, htwo⟩ | ⟨s₁, s₂, server, s₃, share,
    rest, -, -, -, -, hpath, hlong⟩
  · omega
  · rw [htwo, hpath]
    simp
  · have hlens := congrArg List.length hpath
    rw [length_append] at hlens
    omega

theorem length_native (path : Text) :
    (nativePrefix path).length = min (volumeLength path) path.length := by
  rw [nativePrefix, length_map, length_take]

theorem length_lt_of_cleanPath {result : Text} (h : cleanPath path = some result) :
    path.length + 1 < 2 ^ 31 := by
  by_contra hlen
  rw [cleanPath, if_pos (Nat.not_lt.mp hlen)] at h
  cases h

theorem length_cleanPath_le {result : Text} (h : cleanPath path = some result) :
    result.length ≤ max path.length 3 ∨ (2 < volumeLength path ∧ volumeLength path = path.length ∧
        result.length = path.length + 1) := by
  rw [cleanPath_eq_render (length_lt_of_cleanPath h), some.injEq] at h
  rw [← h, length_append, length_native]
  have hren := @length_renderPath_le (path.drop (volumeLength path)) _ rfl
  rw [length_drop] at hren
  by_cases htwo : 2 < volumeLength path
  · rcases isRooted_behind_share htwo with hemp | hrooted
    · right
      have hlens := congrArg List.length hemp
      rw [length_drop, length_nil] at hlens
      have hle := volume_le path
      refine ⟨htwo, by omega, ?_⟩
      rw [cleaned_eq_nil hemp, decide_eq_true htwo, Bool.or_true, min_eq_left hle]
      have hren : (renderPath true []).length = 1 := rfl
      omega
    · left
      rw [cleanedElements]
      rw [hrooted] at hren ⊢
      rw [Bool.true_or]
      have hpos : 0 < (path.drop (volumeLength path)).length := by
        refine length_pos_of_ne_nil fun h => ?_
        rw [h] at hrooted
        exact absurd hrooted (by decide)
      rw [length_drop] at hpos
      omega
  · left
    rw [cleanedElements, decide_eq_false htwo, Bool.or_false]
    omega

/-! ### Drives -/

theorem exists_drive_of_renderPath (hnam : ∀ e ∈ elements, IsName e)
    (hdrv : IsDrive (renderPath rooted elements)) :
    rooted = false ∧ ∃ letter name more, isalpha letter = true ∧
      elements = (letter :: byte ':' :: name) :: more := by
  obtain ⟨letter, rest, hpath, hlet⟩ := hdrv
  rw [renderPath] at hpath
  split_ifs at hpath with hdot hrooted
  · simp at hpath
  · have hfst := (List.cons.inj hpath).1
    exact absurd hlet (hfst ▸ by decide)
  · refine ⟨Bool.eq_false_iff.mpr hrooted, ?_⟩
    rw [nil_append] at hpath
    rcases elements with _ | ⟨_ | ⟨a, _ | ⟨b, e⟩⟩, elements⟩
    · cases hpath
    · exact absurd rfl (hnam [] mem_cons_self).1
    · cases elements with
      | nil =>
        rw [joinNative, intercalate_singleton] at hpath
        simp at hpath
      | cons next elements =>
        rw [joinNative_cons_cons] at hpath
        obtain ⟨-, htail⟩ := List.cons.inj hpath
        exact absurd (List.cons.inj htail).1 (by decide)
    · have hcons := joinNative_append_cons [a, b] e elements
      rw [cons_append, singleton_append] at hcons
      rw [hcons] at hpath
      obtain ⟨rfl, htail⟩ := List.cons.inj hpath
      obtain ⟨rfl, -⟩ := List.cons.inj htail
      exact ⟨a, e, elements, hlet, rfl⟩

theorem not_mem_of_isNormal {e : Text} {more : List Text} (he : e ≠ bytes "..")
    (h : LexicalPath.IsNormal (bytes "..") rooted (e :: more).reverse) : bytes ".." ∉ more := by
  obtain ⟨names, k, hreverse, hnam, -⟩ := h
  rw [reverse_cons] at hreverse
  cases k with
  | zero =>
    rw [replicate_zero, append_nil] at hreverse
    intro hmem
    exact hnam (hreverse ▸ mem_append_left _ (mem_reverse.mpr hmem))
  | succ k =>
    rw [replicate_succ', ← append_assoc] at hreverse
    exact absurd (append_inj' hreverse rfl).2 (by simpa using he)

/-- The first of the elements that are left is a drive which is written differently: alone, or
`.` in that drive with more behind it. -/
def BecomesDrive (path : Text) : Prop :=
  volumeLength path = 0 ∧ isRooted path = false ∧ ∃ letter more, isalpha letter = true ∧
    (cleanedElements path = [[letter, byte ':']] ∨
      more ≠ [] ∧ cleanedElements path = [letter, byte ':', byte '.'] :: more)

/-- The length of a path, and of what is written for it, is an `int`. -/
def FitsTwice (path : Text) : Prop := path.length + 1 < 2 ^ 31 ∧
    (2 < volumeLength path → volumeLength path = path.length → path.length + 2 < 2 ^ 31)

/-- What is written is canonical, fits in the buffer and is cleaned to itself. -/
def CleansCanonically (path : Text) : Prop :=
  ∃ result, cleanPath path = some result ∧ result.length ≤ path.length + 3 ∧
    IsCanonical result ∧ cleanPath result = some result

theorem drop_two_drive (letter : UInt8) (rest : Text) :
    (letter :: byte ':' :: rest).drop 2 = rest := rfl

variable {letter : UInt8}

theorem native_drive (hlet : isalpha letter = true) (rest : Text) :
    nativePrefix (letter :: byte ':' :: rest) = [letter, byte ':'] := by
  have hsep : isSeparator letter = false := by
    refine Bool.eq_false_iff.mpr fun h => ?_
    rcases eq_of_isSeparator h with rfl | rfl <;> exact absurd hlet (by decide)
  rw [nativePrefix, volume_of_isDrive ⟨letter, rest, rfl, hlet⟩]
  simp [hsep]
  decide

theorem cleanPath_drive (hlet : isalpha letter = true)
    (hrest : rest = renderPath rooted elements) (hnam : ∀ e ∈ elements, IsName e)
    (hnorm : LexicalPath.IsNormal (bytes "..") rooted elements.reverse)
    (hlen : (letter :: byte ':' :: rest).length + 1 < 2 ^ 31) :
    IsCanonical (letter :: byte ':' :: rest) ∧
      cleanPath (letter :: byte ':' :: rest) = some (letter :: byte ':' :: rest) := by
  have hvol : volumeLength (letter :: byte ':' :: rest) = 2 :=
    volume_of_isDrive ⟨letter, rest, rfl, hlet⟩
  have hcanon : IsCanonical (letter :: byte ':' :: rest) :=
    ⟨rooted, elements, by rw [hvol, drop_two_drive, hrest], hnam, hnorm⟩
  refine ⟨hcanon, cleanPath_of_isCanonical hlen hcanon ?_ fun h => ?_⟩
  · rw [native_drive hlet, hvol]
    rfl
  · omega

theorem cleanPath_drive_eq (hlet : isalpha letter = true)
    (hlen : (letter :: byte ':' :: rest).length + 1 < 2 ^ 31) :
    cleanPath (letter :: byte ':' :: rest) = some (letter :: byte ':' :: renderPath (isRooted rest)
        (LexicalPath.resolve (bytes "..") (isRooted rest) (pathElements rest))) := by
  have hvol : volumeLength (letter :: byte ':' :: rest) = 2 :=
    volume_of_isDrive ⟨letter, rest, rfl, hlet⟩
  rw [cleanPath_eq_render hlen, native_drive hlet, cleanedElements, hvol,
    drop_two_drive, decide_eq_false (lt_irrefl 2), Bool.or_false]
  rfl

/-- The names of a path without a prefix, when they start with a drive letter. -/
theorem cleans_of_drive {name : Text} {more : List Text}
    (hvol : volumeLength path = 0) (hrooted : isRooted path = false)
    (hlet : isalpha letter = true)
    (hels : cleanedElements path = (letter :: byte ':' :: name) :: more)
    (hres : cleanPath path = some (letter :: byte ':' :: joinNative (name :: more)))
    (hlen : (letter :: byte ':' :: joinNative (name :: more)).length ≤ path.length + 3)
    (hfits : (letter :: byte ':' :: joinNative (name :: more)).length + 1 < 2 ^ 31) :
    CleansCanonically path ↔ ¬ BecomesDrive path := by
  have hnam := hels ▸ @isName_of_mem_cleaned path
  have hnorm := hels ▸ isNormal_cleaned path
  obtain ⟨hfst, hmore⟩ := forall_mem_cons.mp hnam
  have hne : letter :: byte ':' :: name ≠ bytes ".." := by
    intro h
    exact absurd (List.cons.inj (List.cons.inj h).2).1 (by decide)
  have hup := not_mem_of_isNormal hne hnorm
  have hmoreNormal (rooted : Bool) : LexicalPath.IsNormal (bytes "..") rooted more.reverse :=
    ⟨more.reverse, 0, by simp, fun h => hup (mem_reverse.mp h), fun _ => rfl⟩
  have hgood (rooted : Bool) (elements : List Text)
      (hrest : joinNative (name :: more) = renderPath rooted elements)
      (hnam : ∀ e ∈ elements, IsName e)
      (hnorm : LexicalPath.IsNormal (bytes "..") rooted elements.reverse)
      (hbec : ¬ BecomesDrive path) : CleansCanonically path ↔ ¬ BecomesDrive path := by
    obtain ⟨hcanon, hclean⟩ := cleanPath_drive hlet hrest hnam hnorm hfits
    exact iff_of_true ⟨_, hres, hlen, hcanon, hclean⟩ hbec
  have hbec (h : BecomesDrive path) : name = [] ∧ more = [] ∨ name = bytes "." ∧ more ≠ [] := by
    obtain ⟨-, -, letter', more', -, h | ⟨hne', h⟩⟩ := h
    · rw [hels] at h
      simp only [List.cons.injEq] at h
      exact .inl ⟨h.1.2.2, h.2⟩
    · rw [hels] at h
      simp only [List.cons.injEq] at h
      exact .inr ⟨h.1.2.2, h.2 ▸ hne'⟩
  have hbad (h : cleanPath (letter :: byte ':' :: joinNative (name :: more)) ≠
      some (letter :: byte ':' :: joinNative (name :: more))) (hbec : BecomesDrive path) :
      CleansCanonically path ↔ ¬ BecomesDrive path := by
    refine iff_of_false ?_ (not_not_intro hbec)
    rintro ⟨result, hclean, -, -, hagain⟩
    rw [hres, some.injEq] at hclean
    exact h (hclean ▸ hagain)
  by_cases hemp : name = []
  · subst hemp
    cases more with
    | nil =>
      refine hbad ?_ ⟨hvol, hrooted, letter, [], hlet, .inl hels⟩
      have hjoin : joinNative [[]] = [] := intercalate_singleton
      rw [hjoin] at hfits ⊢
      rw [cleanPath_drive_eq hlet hfits]
      have hdot : renderPath (isRooted []) (LexicalPath.resolve (bytes "..") (isRooted [])
          (pathElements [])) = [byte '.'] := by decide
      rw [hdot]
      simp
    | cons next more =>
      refine hgood true (next :: more) ?_ hmore (hmoreNormal true) fun h => ?_
      · rw [joinNative_cons_cons]
        rfl
      · rcases hbec h with h | h
        · exact absurd h.2 (cons_ne_nil _ _)
        · exact absurd h.1 (by decide)
  · by_cases hdot : name = bytes "."
    · subst hdot
      cases more with
      | nil =>
        refine hgood false [] ?_ (forall_mem_nil _) LexicalPath.isNormal_nil fun h => ?_
        · rw [joinNative, intercalate_singleton]
          rfl
        · rcases hbec h with h | h
          · exact absurd h.1 (by decide)
          · exact absurd rfl h.2
      | cons next more =>
        refine hbad ?_ ⟨hvol, hrooted, letter, next :: more, hlet, .inr ⟨cons_ne_nil _ _, hels⟩⟩
        have hjoin := joinNative_cons_cons (bytes ".") next more
        have hels' : pathElements (joinNative (bytes "." :: next :: more)) = next :: more := by
          have h := elements_renderPath hmore false
          rw [renderPath, if_neg fun h => cons_ne_nil _ _ h.1] at h
          rw [hjoin, elements_append isSeparator_native]
          exact h
        have hrooted' : isRooted (joinNative (bytes "." :: next :: more)) = false := by
          rw [hjoin]
          rfl
        rw [cleanPath_drive_eq hlet hfits, hels', hrooted',
          (hmoreNormal false).resolve_eq, renderPath, if_neg fun h => cons_ne_nil _ _ h.1]
        intro h
        have hlens := congrArg List.length (some.inj h)
        rw [hjoin] at hlens
        simp only [Bool.false_eq_true, if_false, nil_append, length_cons, length_append] at hlens
        omega
    · have hname : IsName name := ⟨hemp, hdot, fun c hc =>
        hfst.2.2 c (mem_cons_of_mem _ (mem_cons_of_mem _ hc))⟩
      refine hgood false (name :: more) ?_ (forall_mem_cons.mpr ⟨hname, hmore⟩) ?_ fun h => ?_
      · rw [renderPath, if_neg fun h => cons_ne_nil _ _ h.1]
        rfl
      · rw [reverse_cons]
        by_cases hnameUp : name = bytes ".."
        · exact ⟨more.reverse, 1, by rw [hnameUp]; rfl, fun h => hup (mem_reverse.mp h),
            fun h => absurd h Bool.false_ne_true⟩
        · refine ⟨more.reverse ++ [name], 0, by simp, fun h => ?_, fun _ => rfl⟩
          rcases mem_append.mp h with h | h
          · exact hup (mem_reverse.mp h)
          · exact hnameUp (mem_singleton.mp h).symm
      · rcases hbec h with h | h
        · exact hemp h.1
        · exact hdot h.1

/-! ### The cleaning -/

theorem cleans_of_volume (hfits : FitsTwice path)
    (hvol : ∀ result, cleanPath path = some result →
      volumeLength result = (nativePrefix path).length) : CleansCanonically path := by
  have hclean := cleanPath_eq_render hfits.1
  have hfro := hvol _ hclean
  have hsize := length_cleanPath_le hclean
  generalize hrootedEq : (isRooted (path.drop (volumeLength path)) ||
    decide (2 < volumeLength path)) = rooted at hclean hfro hsize
  have hnorm : LexicalPath.IsNormal (bytes "..") rooted (cleanedElements path).reverse := by
    by_cases htwo : 2 < volumeLength path
    · rcases isRooted_behind_share htwo with hemp | hroot
      · rw [cleaned_eq_nil hemp]
        exact LexicalPath.isNormal_nil
      · rw [← hrootedEq, hroot, Bool.true_or, ← hroot]
        exact isNormal_cleaned path
    · rw [← hrootedEq, decide_eq_false htwo, Bool.or_false]
      exact isNormal_cleaned path
  have hdrop : (nativePrefix path ++ renderPath rooted (cleanedElements path)).drop
      (volumeLength (nativePrefix path ++ renderPath rooted (cleanedElements path))) =
        renderPath rooted (cleanedElements path) := by rw [hfro, drop_left]
  have hcanon : IsCanonical (nativePrefix path ++ renderPath rooted (cleanedElements path)) :=
    ⟨rooted, cleanedElements path, hdrop, isName_of_mem_cleaned, hnorm⟩
  refine ⟨_, hclean, ?_, hcanon, cleanPath_of_isCanonical ?_ hcanon ?_ fun htwo => ?_⟩
  · omega
  · have := hfits.2
    have := hfits.1
    omega
  · have hnative (c : UInt8) : isSeparator pathNativeSeparator = true := isSeparator_native
    rw [nativePrefix, hfro, take_left, nativePrefix, map_map]
    refine map_congr_left fun c _ => ?_
    by_cases hc : isSeparator c = true
    · simp [hc, isSeparator_native]
    · simp [hc]
  · rw [hdrop, isRooted_renderPath isName_of_mem_cleaned]
    rw [hfro, length_native] at htwo
    rw [← hrootedEq, decide_eq_true (by omega), Bool.or_true]

theorem volume_renderPath_of_not_isDrive (hnam : ∀ e ∈ elements, IsName e)
    (hdrv : ¬ IsDrive (renderPath rooted elements)) :
    volumeLength (renderPath rooted elements) = 0 := by
  rcases volume_cases (renderPath rooted elements) with
    hzero | ⟨letter, rest, hpath, hlet, -⟩ |
      ⟨s₁, s₂, server, s₃, share, rest, -, -, -, -, -, hlong⟩
  · exact hzero
  · exact absurd ⟨letter, rest, hpath, hlet⟩ hdrv
  · rcases volume_renderPath hnam rooted with hzero | ⟨e, he, heq⟩
    · exact hzero
    · have hle := volume_name_le (hnam e (mem_of_head? he)).2.2
      simp only [length_cons, length_append] at hlong
      omega

theorem native_share {s₁ s₂ s₃ : UInt8} {server share : Text}
    (hseps : ∀ s ∈ [s₁, s₂, s₃], isSeparator s = true)
    (hnam : ∀ name ∈ [server, share], name ≠ [] ∧ ∀ c ∈ name, isSeparator c = false)
    (hpath : path = s₁ :: s₂ :: (server ++ s₃ :: share) ++ rest)
    (hlong : volumeLength path = (s₁ :: s₂ :: (server ++ s₃ :: share)).length) :
    nativePrefix path = pathNativeSeparator :: pathNativeSeparator ::
      (server ++ pathNativeSeparator :: share) := by
  rw [nativePrefix, hlong, hpath, take_left, map_native_share hseps hnam]

theorem CleansCanonically.fitsTwice (h : CleansCanonically path) : FitsTwice path := by
  obtain ⟨result, hclean, -, -, hagain⟩ := h
  have hlen := length_lt_of_cleanPath hclean
  refine ⟨hlen, fun htwo hend => ?_⟩
  have hemp : path.drop (volumeLength path) = [] := by rw [hend, drop_length]
  have hres := length_lt_of_cleanPath hagain
  rw [cleanPath_eq_render hlen, cleaned_eq_nil hemp, decide_eq_true htwo,
    Bool.or_true, some.injEq] at hclean
  rw [← hclean, length_append, length_native, hend, min_self] at hres
  exact hres

theorem cleans_iff_of_zero (hfits : FitsTwice path) (hzero : volumeLength path = 0) :
    CleansCanonically path ↔ ¬ BecomesDrive path := by
  have hclean := cleanPath_eq_render hfits.1
  have hfro : nativePrefix path = [] := by rw [nativePrefix, hzero]; rfl
  have hdecide : decide (2 < volumeLength path) = false := by rw [hzero]; rfl
  rw [hfro, hdecide, Bool.or_false, nil_append, hzero, drop_zero] at hclean
  by_cases hdrv : IsDrive (renderPath (isRooted path) (cleanedElements path))
  · obtain ⟨hrooted, letter, name, more, hlet, hels⟩ :=
      exists_drive_of_renderPath isName_of_mem_cleaned hdrv
    have hjoin := joinNative_append_cons [letter, byte ':'] name more
    rw [hrooted, hels, renderPath, if_neg fun h => cons_ne_nil _ _ h.1] at hclean
    have hres : cleanPath path = some (letter :: byte ':' :: joinNative (name :: more)) :=
      hclean.trans (congrArg some hjoin)
    have hsize := length_cleanPath_le hres
    have := hfits.1
    exact cleans_of_drive hzero hrooted hlet hels hres (by omega) (by omega)
  · refine iff_of_true (cleans_of_volume hfits fun result hres => ?_) fun h => ?_
    · rw [hclean] at hres
      rw [← some.inj hres, hfro]
      exact volume_renderPath_of_not_isDrive isName_of_mem_cleaned hdrv
    · obtain ⟨-, hrooted, letter, more, hlet, hels⟩ := h
      refine hdrv ?_
      rw [hrooted]
      rcases hels with hels | ⟨-, hels⟩
      · rw [hels]
        exact ⟨letter, [], rfl, hlet⟩
      · rw [hels]
        exact ⟨letter, _, joinNative_append_cons [letter, byte ':'] [byte '.'] more, hlet⟩

theorem cleans_of_share (hfits : FitsTwice path) {s₁ s₂ s₃ : UInt8} {server share : Text}
    (hseps : ∀ s ∈ [s₁, s₂, s₃], isSeparator s = true)
    (hnam : ∀ name ∈ [server, share], name ≠ [] ∧ ∀ c ∈ name, isSeparator c = false)
    (hdot : server.head? ≠ some (byte '.'))
    (hpath : path = s₁ :: s₂ :: (server ++ s₃ :: share) ++ rest)
    (hlong : volumeLength path = (s₁ :: s₂ :: (server ++ s₃ :: share)).length) :
    CleansCanonically path := by
  refine cleans_of_volume hfits fun result hres => ?_
  have hfro := native_share hseps hnam hpath hlong
  have htwo : 2 < volumeLength path := by
    rw [hlong]
    simp only [length_cons, length_append]
    omega
  rw [cleanPath_eq_render hfits.1, decide_eq_true htwo, Bool.or_true, hfro, some.injEq] at hres
  rw [← hres, hfro]
  refine volume_share (fun s hs => ?_) hnam hdot fun c hc => ?_
  · simp only [mem_cons, not_mem_nil, or_false, or_self] at hs
    rw [hs, isSeparator_native]
  · rw [renderPath, if_neg fun h => Bool.noConfusion h.2] at hc
    obtain rfl : pathNativeSeparator = c := some.inj hc
    exact isSeparator_native

theorem cleansCanonically_iff (path : Text) :
    CleansCanonically path ↔ FitsTwice path ∧ ¬ BecomesDrive path := by
  by_cases hfits : FitsTwice path
  swap
  · exact iff_of_false (fun h => hfits h.fitsTwice) fun h => hfits h.1
  rw [and_iff_right hfits]
  rcases volume_cases path with hzero | ⟨letter, rest, hpath, hlet, htwo⟩ | ⟨s₁, s₂, server, s₃,
    share, rest, hseps, hnam, hdot, hrest, hpath, hlong⟩
  · exact cleans_iff_of_zero hfits hzero
  · refine iff_of_true (cleans_of_volume hfits fun result hres => ?_) fun h => ?_
    · subst hpath
      rw [cleanPath_eq_render hfits.1, native_drive hlet] at hres
      rw [native_drive hlet, ← some.inj hres]
      exact volume_of_isDrive ⟨letter, _, rfl, hlet⟩
    · exact absurd (h.1.symm.trans htwo) (by decide)
  · refine iff_of_true (cleans_of_share hfits hseps hnam hdot hpath hlong) ?_
    intro h
    have hzero := h.1
    rw [hlong] at hzero
    simp at hzero

/-- The first element that is left is read as a drive. -/
theorem not_cleansCanonically_drive : ¬ CleansCanonically (bytes "./C:") := by
  rintro ⟨result, hclean, -, -, hagain⟩
  rw [cleanPath_eq_render (by decide)] at hclean
  obtain rfl : result = bytes "C:" := by
    rw [← some.inj hclean]
    decide
  rw [cleanPath_eq_render (by decide)] at hagain
  exact absurd (some.inj hagain) (by decide)

end Grayscale
