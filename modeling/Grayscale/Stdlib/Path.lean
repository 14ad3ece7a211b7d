import Grayscale.Library.LexicalPath
import Grayscale.Util.Bytes

/-!
# Joining paths

`gray_path_join_parts` on POSIX: the parts are copied into one buffer with separators between them,
and the buffer is parsed as a path, where drive letters and UNC prefixes are looked for.
-/

namespace Grayscale

open List

/-! ### The parser of paths -/

/-- `PATH_NATIVE_SEPARATOR` on POSIX. -/
def pathNativeSeparator : UInt8 := byte '/'

def isSeparator (character : UInt8) : Bool := character == byte '/' || character == byte '\\'

/-- The bytes up to the next separator: `while (index < length && !is_separator(path[index]))`. -/
def takeName (path : Text) : Text := path.takeWhile (!isSeparator ·)

def volumeLength (path : Text) : ℕ :=
  let length := path.length
  if 2 ≤ length ∧ isalpha (byteAt path 0) = true ∧ byteAt path 1 = byte ':' then 2
  else if 5 ≤ length ∧ isSeparator (byteAt path 0) = true ∧ isSeparator (byteAt path 1) = true ∧
      isSeparator (byteAt path 2) = false ∧ byteAt path 2 ≠ byte '.' then
    let index := 2 + (takeName (path.drop 2)).length
    if length - 1 ≤ index then 0
    else if isSeparator (byteAt path (index + 1)) then 0
    else index + 1 + (takeName (path.drop (index + 1))).length
  else 0

/-- One element, on those that are collected with the last one in front. -/
def addElement (rooted : Bool) (elements : List Text) (element : Text) : List Text :=
  if element = [] ∨ element = bytes "." then elements
  else if element = bytes ".." then
    match elements with
    | [] => if rooted then [] else [element]
    | last :: rest =>
      if last ≠ bytes ".." then rest
      else if rooted then last :: rest
      else element :: last :: rest
  else element :: elements

/-- The loop of `collect_elements`. -/
def collectElementsLoop (rooted : Bool) (rest : Text) (elements : List Text) : List Text :=
  match rest with
  | [] => elements
  | character :: rest =>
    let start := (character :: rest).dropWhile isSeparator
    collectElementsLoop rooted (start.dropWhile (!isSeparator ·))
      (addElement rooted elements (takeName start))
termination_by rest.length
decreasing_by
  have hstart := length_dropWhile_le isSeparator rest
  have hname := length_dropWhile_le (!isSeparator ·) rest
  by_cases hc : isSeparator character = true
  · rw [dropWhile_cons_of_pos hc]
    have := length_dropWhile_le (!isSeparator ·) (rest.dropWhile isSeparator)
    simp only [length_cons]
    omega
  · rw [dropWhile_cons_of_neg hc, dropWhile_cons_of_pos (by simpa using hc)]
    simp only [length_cons]
    omega

/-- `*rooted = rest_length > 0 && is_separator(rest[0])`. -/
def isRooted (rest : Text) : Bool := !rest.isEmpty && isSeparator (byteAt rest 0)

/-- `collect_elements`, with the last element in front. -/
def collectElements (rest : Text) : List Text := collectElementsLoop (isRooted rest) rest []

/-- `clean_path`; `none` where `length + 1` overflows. -/
def cleanPath (path : Text) : Option Text :=
  if 2 ^ 31 ≤ path.length + 1 then none
  else
    let volume := volumeLength path
    let rest := path.drop volume
    let rooted := isRooted rest
    let elements := (collectElements rest).reverse
    let buffer := (path.take volume).map fun c => if isSeparator c then pathNativeSeparator else c
    let buffer := buffer ++ if rooted then [pathNativeSeparator] else []
    let buffer := buffer ++ [pathNativeSeparator].intercalate elements
    if elements.length = 0 ∧ rooted = false then
      some (buffer ++ [if 2 < volume then pathNativeSeparator else byte '.'])
    else some buffer

/-- The loop of `gray_path_join_parts`. -/
def joinPartsLoop : List Text → Text → Text
  | [], buffer => buffer
  | part :: parts, buffer =>
    if part.length = 0 then joinPartsLoop parts buffer
    else
      let buffer := if 0 < buffer.length then buffer ++ [pathNativeSeparator] else buffer
      joinPartsLoop parts (buffer ++ part)

/-- `gray_path_join_parts`; `none` where `position` overflows, which only grows. -/
def grayPathJoinParts (parts : List Text) : Option Text :=
  let buffer := joinPartsLoop parts []
  if 2 ^ 31 ≤ buffer.length then none
  else if buffer.length = 0 then some []
  else cleanPath buffer

/-! ### What a join is -/

/-- The elements of a path, without the empty ones and those that lead nowhere. -/
def pathElements (path : Text) : List Text :=
  (path.splitOnP isSeparator).filter fun element => element ≠ [] ∧ element ≠ bytes "."

structure IsJoin (parts : List Text) (path : Text) : Prop where
  empty : (∀ part ∈ parts, part = []) → path = []
  rooted : ∀ before part after, parts = before ++ part :: after → (∀ p ∈ before, p = []) →
    part ≠ [] → isRooted path = isRooted part
  /-- There is no prefix, unless it is that of the first element, a drive. -/
  volume : volumeLength path = 0 ∨
    ∃ element ∈ (pathElements path).head?, volumeLength path = volumeLength element
  elements : LexicalPath.Resolution (bytes "..") (isRooted path) (parts.flatMap pathElements)
    (pathElements path)
  /-- A rooted base stays rooted, and elements that do not lead up are kept. -/
  relative : ∀ base relative, parts = [base, relative] → isRooted base = true →
    isRooted path = true ∧
      (bytes ".." ∉ pathElements relative → pathElements relative <:+ pathElements path)

def StartsWithShare (path : Text) : Prop :=
  ∃ s₁ s₂ server s₃ share, (∀ s ∈ [s₁, s₂, s₃], isSeparator s = true) ∧
    (∀ name ∈ [server, share], name ≠ [] ∧ ∀ c ∈ name, isSeparator c = false) ∧
    server.head? ≠ some (byte '.') ∧ s₁ :: s₂ :: (server ++ s₃ :: share) <+: path

/-! ### Elements -/

theorem isSeparator_native : isSeparator pathNativeSeparator = true := rfl

theorem elements_nil : pathElements [] = [] := by decide

theorem elements_append {s : UInt8} (hs : isSeparator s = true) (l m : Text) :
    pathElements (l ++ s :: m) = pathElements l ++ pathElements m := by
  rw [pathElements, splitOnP_append_cons l m hs, filter_append]
  rfl

theorem elements_cons {s : UInt8} (hs : isSeparator s = true) (l : Text) :
    pathElements (s :: l) = pathElements l := by
  rw [← nil_append (s :: l), elements_append hs, elements_nil, nil_append]

theorem elements_name {name : Text} (h : ∀ c ∈ name, isSeparator c = false) :
    pathElements name = [name].filter fun element => element ≠ [] ∧ element ≠ bytes "." := by
  rw [pathElements, splitOnP_eq_singleton h]

theorem elements_dropWhile (l : Text) :
    pathElements (l.dropWhile isSeparator) = pathElements l := by
  induction l with
  | nil => rfl
  | cons c l ih =>
    by_cases hc : isSeparator c = true
    · rw [dropWhile_cons_of_pos hc, elements_cons hc, ih]
    · rw [dropWhile_cons_of_neg hc]

variable {path : Text}

theorem forall_mem_elements : ∀ e ∈ pathElements path,
    e ≠ [] ∧ e ≠ bytes "." ∧ ∀ c ∈ e, isSeparator c = false := by
  intro e he
  obtain ⟨he, hkept⟩ := mem_filter.mp he
  rw [decide_eq_true_eq] at hkept
  exact ⟨hkept.1, hkept.2, eq_false_of_mem_splitOnP he⟩

def joinNative (texts : List Text) : Text := [pathNativeSeparator].intercalate texts

theorem joinNative_cons_cons (text next : Text) (texts : List Text) :
    joinNative (text :: next :: texts) =
      text ++ pathNativeSeparator :: joinNative (next :: texts) := by
  rw [joinNative, intercalate_cons_cons, append_assoc, singleton_append, joinNative]

theorem elements_joinNative (texts : List Text) :
    pathElements (joinNative texts) = texts.flatMap pathElements := by
  induction texts with
  | nil => exact elements_nil
  | cons text texts ih =>
    cases texts with
    | nil => rw [joinNative, intercalate_singleton, flatMap_singleton]
    | cons next texts =>
      rw [joinNative_cons_cons, elements_append isSeparator_native, ih]
      simp only [flatMap_cons]

theorem addElement_eq (rooted : Bool) (elements : List Text) (element : Text) :
    addElement rooted elements element =
      if element ≠ [] ∧ element ≠ bytes "." then
        LexicalPath.push (bytes "..") rooted elements element
      else elements := by
  unfold addElement
  by_cases hdrop : element = [] ∨ element = bytes "."
  · rw [if_pos hdrop, if_neg fun h => hdrop.elim h.1 h.2]
  · have hkept : element ≠ [] ∧ element ≠ bytes "." := not_or.mp hdrop
    rw [if_neg hdrop, if_pos hkept]
    by_cases hup : element = bytes ".."
    · rw [if_pos hup, hup]
      cases elements with
      | nil => rfl
      | cons last rest =>
        rw [LexicalPath.push.eq_def, if_pos rfl]
        by_cases hlast : last = bytes ".." <;> simp [hlast]
    · rw [if_neg hup, LexicalPath.push_of_ne hup]

theorem collectElementsLoop_eq (rooted : Bool) (rest : Text) (elements : List Text) :
    collectElementsLoop rooted rest elements =
      (pathElements rest).foldl (LexicalPath.push (bytes "..") rooted) elements := by
  induction rest, elements using collectElementsLoop.induct rooted with
  | case1 elements => rw [collectElementsLoop, elements_nil, foldl_nil]
  | case2 elements character rest start ih =>
    rw [collectElementsLoop, ← elements_dropWhile, ih]
    change _ = (pathElements start).foldl _ elements
    have hname : ∀ c ∈ takeName start, isSeparator c = false := fun c hc => by
      simpa using mem_takeWhile_imp hc
    have hst : pathElements start = pathElements (takeName start) ++
        pathElements (start.dropWhile (!isSeparator ·)) := by
      conv_lhs => rw [← takeWhile_append_dropWhile (p := (!isSeparator ·)) (l := start)]
      cases haft : start.dropWhile (!isSeparator ·) with
      | nil => rw [append_nil, elements_nil, append_nil, takeName]
      | cons s after =>
        have hs : isSeparator s = true := by
          have hhead := head?_dropWhile_not (!isSeparator ·) start
          rw [haft] at hhead
          simpa using hhead
        rw [elements_append hs, elements_cons hs, takeName]
    rw [hst, foldl_append, elements_name hname, addElement_eq]
    congr 1
    by_cases hkept : takeName start ≠ [] ∧ takeName start ≠ bytes "."
    · rw [if_pos hkept, filter_cons_of_pos (by simpa using hkept)]
      rfl
    · rw [if_neg hkept, filter_cons_of_neg (by simpa using hkept)]
      rfl

theorem collectElements_eq (rest : Text) : (collectElements rest).reverse =
    LexicalPath.resolve (bytes "..") (isRooted rest) (pathElements rest) := by
  rw [collectElements, collectElementsLoop_eq, LexicalPath.resolve]

/-! ### Prefixes -/

def IsDrive (path : Text) : Prop :=
  ∃ letter rest, path = letter :: byte ':' :: rest ∧ isalpha letter = true

theorem isDrive_iff : IsDrive path ↔
    2 ≤ path.length ∧ isalpha (byteAt path 0) = true ∧ byteAt path 1 = byte ':' := by
  constructor
  · rintro ⟨letter, rest, rfl, hlet⟩
    exact ⟨by simp, hlet, rfl⟩
  · rintro ⟨hlen, hlet, hcol⟩
    match path, hlen with
    | letter :: colon :: rest, _ =>
      rw [byteAt_succ, byteAt_zero] at hcol
      exact ⟨letter, rest, by rw [hcol], hlet⟩

theorem volume_of_isDrive (h : IsDrive path) : volumeLength path = 2 := if_pos (isDrive_iff.mp h)

theorem eq_of_isSeparator {c : UInt8} (h : isSeparator c = true) : c = byte '/' ∨ c = byte '\\' := by
  simpa only [isSeparator, Bool.or_eq_true, beq_iff_eq] using h

theorem not_isDrive_of_isSeparator {c : UInt8} (h : isSeparator c = true) (path : Text) :
    ¬ IsDrive (c :: path) := by
  rintro ⟨letter, rest, hpath, hlet⟩
  obtain ⟨rfl, -⟩ := List.cons.inj hpath
  rcases eq_of_isSeparator h with rfl | rfl <;> exact absurd hlet (by decide)

theorem takeName_append {name rest : Text} (hname : ∀ c ∈ name, isSeparator c = false)
    (hrest : ∀ c ∈ rest.head?, isSeparator c = true) : takeName (name ++ rest) = name := by
  have hkeep : ∀ c ∈ name, (!isSeparator c) = true := fun c hc => by rw [hname c hc]; rfl
  refine (dropWhile_append_of_head hkeep ?_).2
  cases rest with
  | nil => rfl
  | cons c rest => simp [hrest c rfl]

theorem exists_takeName (path : Text) : ∃ rest, path = takeName path ++ rest ∧
    (∀ c ∈ takeName path, isSeparator c = false) ∧ ∀ c ∈ rest.head?, isSeparator c = true := by
  refine ⟨path.dropWhile (!isSeparator ·), takeWhile_append_dropWhile.symm,
    fun c hc => by simpa using mem_takeWhile_imp hc, fun c hc => ?_⟩
  have hhead := head?_dropWhile_not (!isSeparator ·) path
  rw [Option.mem_def.mp hc] at hhead
  simpa using hhead

theorem byteAt_append_cons (l : Text) (c : UInt8) (m : Text) : byteAt (l ++ c :: m) l.length = c := by
  rw [byteAt, getD_eq_getElem?_getD, getElem?_append_right le_rfl, Nat.sub_self]
  rfl

/-- The prefix of a path that starts with a server and a share: it goes on to the end of the
share. -/
theorem volume_of_share (h : StartsWithShare path) :
    ∃ s₁ s₂ server s₃ share rest, (∀ s ∈ [s₁, s₂, s₃], isSeparator s = true) ∧
      (∀ name ∈ [server, share], name ≠ [] ∧ ∀ c ∈ name, isSeparator c = false) ∧
      server.head? ≠ some (byte '.') ∧ (∀ c ∈ rest.head?, isSeparator c = true) ∧
      path = s₁ :: s₂ :: (server ++ s₃ :: share) ++ rest ∧
      volumeLength path = (s₁ :: s₂ :: (server ++ s₃ :: share)).length := by
  obtain ⟨s₁, s₂, server, s₃, share, hseps, hnam, hdot, ⟨after, rfl⟩⟩ := h
  simp only [forall_mem_cons, not_mem_nil, false_imp_iff, implies_true, and_true]
    at hseps hnam
  obtain ⟨hs₁, hs₂, hs₃⟩ := hseps
  obtain ⟨⟨hserver, hserv⟩, hshr, hshareName⟩ := hnam
  -- The share ends at the next separator.
  obtain ⟨rest, hrest, hname, hend⟩ := exists_takeName (share ++ after)
  obtain ⟨c, server, rfl⟩ := exists_cons_of_ne_nil hserver
  obtain ⟨d, share, rfl⟩ := exists_cons_of_ne_nil hshr
  have hd : isSeparator d = false := hshareName d mem_cons_self
  have hcons : ∃ share', takeName (d :: share ++ after) = d :: share' := by
    rw [cons_append, takeName, takeWhile_cons_of_pos (by rw [hd]; rfl)]
    exact ⟨_, rfl⟩
  obtain ⟨share', hshr'⟩ := hcons
  rw [hshr'] at hrest hname
  refine ⟨s₁, s₂, c :: server, s₃, d :: share', rest, by simp [hs₁, hs₂, hs₃], ?_, hdot, hend, ?_, ?_⟩
  · simp only [forall_mem_cons, not_mem_nil, false_imp_iff, implies_true, and_true]
    simp only [forall_mem_cons] at hserv hname
    exact ⟨⟨hserver, hserv⟩, cons_ne_nil _ _, hname⟩
  · simp only [cons_append, append_assoc] at hrest ⊢
    rw [hrest]
  · have hpath : s₁ :: s₂ :: (c :: server ++ s₃ :: d :: share) ++ after =
        s₁ :: s₂ :: (c :: server ++ s₃ :: (d :: share ++ after)) := by simp
    have hc : isSeparator c = false := hserv c mem_cons_self
    have hdot' : c ≠ byte '.' := fun h => hdot (by rw [h]; rfl)
    have hdrv := mt isDrive_iff.mpr (not_isDrive_of_isSeparator hs₁
      (s₂ :: (c :: server ++ s₃ :: (d :: share ++ after))))
    have hidx : takeName ((s₁ :: s₂ :: (c :: server ++ s₃ :: (d :: share ++ after))).drop 2) =
        c :: server := takeName_append hserv (by simpa using hs₃)
    have hshareAt : ((s₁ :: s₂ :: (c :: server ++ s₃ :: (d :: share ++ after))).drop
        (2 + (c :: server).length + 1)) = d :: share ++ after := by
      rw [show s₁ :: s₂ :: (c :: server ++ s₃ :: (d :: share ++ after)) =
        s₁ :: s₂ :: (c :: server ++ [s₃]) ++ (d :: share ++ after) by simp]
      refine drop_left' ?_
      simp only [length_cons, length_append, length_nil]
      omega
    have hbyte : byteAt (s₁ :: s₂ :: (c :: server ++ s₃ :: (d :: share ++ after)))
        (2 + (c :: server).length + 1) = d := by
      rw [byteAt, getD_eq_getElem?_getD, ← head?_drop, hshareAt]
      rfl
    rw [hpath, volumeLength]
    simp only
    rw [if_neg hdrv, if_pos, hidx, if_neg, hbyte, if_neg (by simp [hd]), hshareAt, hshr']
    · simp only [length_cons, length_append]
      omega
    · simp only [length_cons, length_append]
      omega
    · simp only [length_cons, length_append]
      exact ⟨by omega, hs₁, hs₂, hc, hdot'⟩

theorem volume_eq_zero (hdrv : ¬ IsDrive path) (hshr : ¬ StartsWithShare path) :
    volumeLength path = 0 := by
  rw [volumeLength]
  simp only
  rw [if_neg (mt isDrive_iff.mpr hdrv)]
  split_ifs with hst hend hsep
  · rfl
  · rfl
  · exfalso
    obtain ⟨hlen, hs₁, hs₂, hc, hdot⟩ := hst
    match path, hlen with
    | s₁ :: s₂ :: c :: rest, _ =>
      simp only [byteAt_zero, byteAt_succ] at hs₁ hs₂ hc hdot
      obtain ⟨after, haft, hname, hnext⟩ := exists_takeName (c :: rest)
      have hdrop : (s₁ :: s₂ :: c :: rest).drop 2 = c :: rest := rfl
      rw [hdrop] at hend hsep
      obtain ⟨server, hserver⟩ : ∃ server, takeName (c :: rest) = c :: server := by
        rw [takeName, takeWhile_cons_of_pos (by rw [hc]; rfl)]
        exact ⟨_, rfl⟩
      have hlens := congrArg List.length haft
      simp only [length_cons, length_append] at hlens hend
      match after, hnext with
      | [], _ =>
        simp only [length_nil] at hlens
        omega
      | [s₃], _ =>
        simp only [length_singleton] at hlens
        omega
      | s₃ :: d :: after, hnext =>
        have hpath : s₁ :: s₂ :: c :: rest =
            (s₁ :: s₂ :: takeName (c :: rest) ++ [s₃]) ++ d :: after := by
          conv_lhs => rw [haft]
          simp
        have hbyte : byteAt (s₁ :: s₂ :: c :: rest) (2 + (takeName (c :: rest)).length + 1) = d := by
          rw [hpath, show 2 + (takeName (c :: rest)).length + 1 =
            (s₁ :: s₂ :: takeName (c :: rest) ++ [s₃]).length by simp; omega]
          exact byteAt_append_cons _ _ _
        rw [hbyte] at hsep
        refine hshr ⟨s₁, s₂, takeName (c :: rest), s₃, [d], ?_, ?_, ?_, after, ?_⟩
        · simpa [hs₁, hs₂] using hnext s₃ rfl
        · simp only [forall_mem_cons, not_mem_nil, false_imp_iff, implies_true, and_true]
          exact ⟨⟨by rw [hserver]; exact cons_ne_nil _ _, hname⟩, cons_ne_nil _ _,
            by simpa using hsep⟩
        · rw [hserver]
          exact fun h => hdot (Option.some.inj h)
        · rw [hpath]
          simp
  · rfl

theorem volume_name_le {name : Text} (h : ∀ c ∈ name, isSeparator c = false) :
    volumeLength name ≤ 2 := by
  by_cases hdrv : IsDrive name
  · exact (volume_of_isDrive hdrv).le
  · refine (volume_eq_zero hdrv ?_).le.trans (Nat.zero_le 2)
    rintro ⟨s₁, s₂, server, s₃, share, hseps, -, -, after, rfl⟩
    have hs₁ := hseps s₁ mem_cons_self
    rw [h s₁ (by simp)] at hs₁
    exact Bool.false_ne_true hs₁

/-! ### The buffer of the parts -/

/-- The parts that are copied, with separators between them. -/
def joinedParts (parts : List Text) : Text := joinNative (parts.filter (· ≠ []))

theorem joinNative_append_cons (l m : Text) (texts : List Text) :
    joinNative ((l ++ m) :: texts) = l ++ joinNative (m :: texts) := by
  cases texts with
  | nil => rw [joinNative, joinNative, intercalate_singleton, intercalate_singleton]
  | cons next texts => rw [joinNative_cons_cons, joinNative_cons_cons, append_assoc]

theorem joinPartsLoop_eq (parts : List Text) (buffer : Text) : joinPartsLoop parts buffer =
      if buffer = [] then joinedParts parts
      else joinNative (buffer :: parts.filter (· ≠ [])) := by
  induction parts generalizing buffer with
  | nil =>
    rw [joinPartsLoop]
    split_ifs with hbuf
    · rw [hbuf]
      rfl
    · rw [filter_nil, joinNative, intercalate_singleton]
  | cons part parts ih =>
    rw [joinPartsLoop]
    by_cases hpart : part = []
    · rw [if_pos (by rw [hpart]; rfl), ih, joinedParts, joinedParts,
        filter_cons_of_neg (by simpa using hpart)]
    · have hlen : ¬ part.length = 0 := fun h => hpart (length_eq_zero_iff.mp h)
      rw [if_neg hlen, joinedParts, filter_cons_of_pos (by simpa using hpart)]
      by_cases hbuf : buffer = []
      · subst hbuf
        simp only [length_nil, Nat.lt_irrefl, if_false, nil_append]
        rw [ih, if_neg hpart, if_true]
      · have hpos : 0 < buffer.length := length_pos_iff.mpr hbuf
        simp only [if_pos hpos]
        rw [ih, if_neg (by simp), if_neg hbuf, append_assoc, joinNative_append_cons,
          singleton_append, joinNative_cons_cons]
        exact congrArg (buffer ++ ·) (joinNative_append_cons [pathNativeSeparator] part _)

theorem elements_joined (parts : List Text) :
    pathElements (joinedParts parts) = parts.flatMap pathElements := by
  rw [joinedParts, elements_joinNative]
  induction parts with
  | nil => rfl
  | cons part parts ih =>
    by_cases hpart : part = []
    · rw [filter_cons_of_neg (by simpa using hpart), ih, flatMap_cons, hpart,
        elements_nil, nil_append]
    · rw [filter_cons_of_pos (by simpa using hpart), flatMap_cons, flatMap_cons, ih]

variable {parts : List Text}

theorem joined_eq_nil (h : ∀ part ∈ parts, part = []) : joinedParts parts = [] := by
  rw [joinedParts, filter_eq_nil_iff.mpr (by simpa using h)]
  rfl

theorem exists_first_part (h : ¬ ∀ part ∈ parts, part = []) :
    ∃ before part after, parts = before ++ part :: after ∧ (∀ p ∈ before, p = []) ∧ part ≠ [] := by
  have hsome : (parts.find? (· ≠ [])).isSome = true := by simpa using h
  obtain ⟨part, hpart⟩ := Option.isSome_iff_exists.mp hsome
  obtain ⟨hne, before, after, hpts, hbef⟩ := find?_eq_some_iff_append.mp hpart
  exact ⟨before, part, after, hpts, by simpa using hbef, by simpa using hne⟩

theorem exists_joined {before : List Text} {part : Text} (hbef : ∀ p ∈ before, p = [])
    (hpart : part ≠ []) (after : List Text) : ∃ rest,
      joinedParts (before ++ part :: after) = part ++ rest ∧
        ∀ c ∈ rest.head?, c = pathNativeSeparator := by
  have hfilter : (before ++ part :: after).filter (· ≠ []) = part :: after.filter (· ≠ []) := by
    rw [filter_append, filter_eq_nil_iff.mpr (by simpa using hbef),
      filter_cons_of_pos (by simpa using hpart), nil_append]
  rw [joinedParts, hfilter]
  cases after.filter (· ≠ []) with
  | nil => exact ⟨[], by rw [joinNative, intercalate_singleton, append_nil], by simp⟩
  | cons next texts => exact ⟨_, joinNative_cons_cons part next texts, by simp⟩

theorem not_isDrive_joined (h : ∀ part ∈ parts, volumeLength part = 0) :
    ¬ IsDrive (joinedParts parts) := by
  intro hdrv
  by_cases hemp : ∀ part ∈ parts, part = []
  · rw [joined_eq_nil hemp] at hdrv
    obtain ⟨letter, rest, hnil, -⟩ := hdrv
    cases hnil
  · obtain ⟨before, part, after, rfl, hbef, hpart⟩ := exists_first_part hemp
    obtain ⟨rest, hjoined, hrest⟩ := exists_joined hbef hpart after
    rw [hjoined] at hdrv
    obtain ⟨letter, text, htext, hlet⟩ := hdrv
    match part, hpart with
    | [a], _ =>
      have htail : rest = byte ':' :: text := (List.cons.inj htext).2
      have hcol := hrest (byte ':') (by rw [htail]; rfl)
      exact absurd hcol (by decide)
    | a :: b :: part, _ =>
      obtain ⟨rfl, htail⟩ := List.cons.inj htext
      obtain ⟨rfl, -⟩ := List.cons.inj htail
      have hvol := h (a :: byte ':' :: part) (by simp)
      rw [volume_of_isDrive ⟨a, part, rfl, hlet⟩] at hvol
      exact absurd hvol (by decide)

/-! ### Joins -/

/-- What is written for a path without a prefix. -/
def renderPath (rooted : Bool) (elements : List Text) : Text :=
  if elements = [] ∧ rooted = false then [byte '.']
  else (if rooted then [pathNativeSeparator] else []) ++ joinNative elements

theorem cleanPath_eq (hvol : volumeLength path = 0)
    (hlen : path.length + 1 < 2 ^ 31) : cleanPath path = some (renderPath (isRooted path)
      (LexicalPath.resolve (bytes "..") (isRooted path) (pathElements path))) := by
  rw [cleanPath, if_neg (Nat.not_le.mpr hlen), hvol]
  simp only [drop_zero, take_zero, map_nil, nil_append, collectElements_eq,
    Nat.not_lt_zero, if_false, length_eq_zero_iff]
  rw [renderPath]
  by_cases hdot : LexicalPath.resolve (bytes "..") (isRooted path) (pathElements path) = [] ∧
      isRooted path = false
  · rw [if_pos hdot, if_pos hdot, hdot.1, hdot.2]
    rfl
  · rw [if_neg hdot, if_neg hdot]
    rfl

section Render

variable {elements : List Text}
  (h : ∀ e ∈ elements, e ≠ [] ∧ e ≠ bytes "." ∧ ∀ c ∈ e, isSeparator c = false) (rooted : Bool)

include h

theorem isRooted_joinNative : isRooted (joinNative elements) = false := by
  cases elements with
  | nil => rfl
  | cons e elements =>
    obtain ⟨hne, -, hname⟩ := h e mem_cons_self
    obtain ⟨c, e, rfl⟩ := exists_cons_of_ne_nil hne
    have hc := hname c mem_cons_self
    have hcons := joinNative_append_cons [c] e elements
    rw [singleton_append] at hcons
    simp [isRooted, hcons, hc]

theorem isRooted_renderPath : isRooted (renderPath rooted elements) = rooted := by
  rw [renderPath]
  split_ifs with hdot hroot
  · rw [hdot.2]
    rfl
  · rw [hroot]
    rfl
  · rw [nil_append, isRooted_joinNative h]
    exact (Bool.eq_false_iff.mpr hroot).symm

theorem elements_renderPath : pathElements (renderPath rooted elements) = elements := by
  have hels : pathElements (joinNative elements) = elements := by
    rw [elements_joinNative]
    induction elements with
    | nil => rfl
    | cons e elements ih =>
      obtain ⟨⟨hne, hdot, hname⟩, htail⟩ := forall_mem_cons.mp h
      rw [flatMap_cons, ih htail, elements_name hname,
        filter_cons_of_pos (by simpa using ⟨hne, hdot⟩)]
      rfl
  rw [renderPath]
  split_ifs with hdot hroot
  · rw [hdot.1]
    decide
  · rw [singleton_append, elements_cons isSeparator_native, hels]
  · rw [nil_append, hels]

theorem volume_renderPath : volumeLength (renderPath rooted elements) = 0 ∨
    ∃ e ∈ elements.head?, volumeLength (renderPath rooted elements) = volumeLength e := by
  have hfst : isRooted (joinNative elements) = false := isRooted_joinNative h
  have hshr : ¬ StartsWithShare (renderPath rooted elements) := by
    rintro ⟨s₁, s₂, server, s₃, share, hseps, -, -, after, hpath⟩
    simp only [forall_mem_cons] at hseps
    rw [renderPath] at hpath
    split_ifs at hpath with hdot hroot
    · simp at hpath
    · have htail : joinNative elements = s₂ :: (server ++ s₃ :: share) ++ after :=
        (List.cons.inj hpath).2.symm
      rw [htail] at hfst
      simp [isRooted, hseps.2.1] at hfst
    · rw [nil_append] at hpath
      rw [← hpath] at hfst
      simp [isRooted, hseps.1] at hfst
  by_cases hdrv : IsDrive (renderPath rooted elements)
  swap
  · exact .inl (volume_eq_zero hdrv hshr)
  refine .inr ?_
  rw [volume_of_isDrive hdrv]
  rw [renderPath] at hdrv
  split_ifs at hdrv with hdot hroot
  · obtain ⟨letter, rest, hpath, -⟩ := hdrv
    simp at hpath
  · exact absurd hdrv (not_isDrive_of_isSeparator isSeparator_native _)
  · obtain ⟨letter, rest, hpath, hlet⟩ := hdrv
    rw [nil_append] at hpath
    match elements, h with
    | [], _ => cases hpath
    | e :: elements, h =>
      obtain ⟨hne, -, hname⟩ := h e mem_cons_self
      refine ⟨e, rfl, (volume_of_isDrive ?_).symm⟩
      match e, hne with
      | [a], _ =>
        cases elements with
        | nil =>
          rw [joinNative, intercalate_singleton] at hpath
          simp at hpath
        | cons next elements =>
          rw [joinNative_cons_cons] at hpath
          obtain ⟨-, htail⟩ := List.cons.inj hpath
          exact absurd (List.cons.inj htail).1 (by decide)
      | a :: b :: e, _ =>
        have hcons := joinNative_append_cons [a, b] e elements
        rw [cons_append, singleton_append] at hcons
        rw [hcons] at hpath
        obtain ⟨rfl, htail⟩ := List.cons.inj hpath
        obtain ⟨rfl, -⟩ := List.cons.inj htail
        exact ⟨a, e, rfl, hlet⟩

end Render

theorem isRooted_append {part : Text} (hpart : part ≠ []) (rest : Text) :
    isRooted (part ++ rest) = isRooted part := by
  obtain ⟨c, part, rfl⟩ := exists_cons_of_ne_nil hpart
  rfl

theorem isJoin_renderPath {path : Text} (hpath : path = renderPath
      (isRooted (joinedParts parts)) (LexicalPath.resolve (bytes "..")
        (isRooted (joinedParts parts)) (pathElements (joinedParts parts))))
    (hne : ¬ ∀ part ∈ parts, part = []) : IsJoin parts path := by
  have hnam : ∀ e ∈ LexicalPath.resolve (bytes "..") (isRooted (joinedParts parts))
      (pathElements (joinedParts parts)),
      e ≠ [] ∧ e ≠ bytes "." ∧ ∀ c ∈ e, isSeparator c = false := fun e he =>
    forall_mem_elements e (LexicalPath.mem_of_mem_resolve he)
  have hels := elements_renderPath hnam (isRooted (joinedParts parts))
  have hrooted := isRooted_renderPath hnam (isRooted (joinedParts parts))
  have hvol := volume_renderPath hnam (isRooted (joinedParts parts))
  rw [← hpath] at hels hrooted hvol
  refine ⟨fun h => absurd h hne, ?_, ?_, ?_, ?_⟩
  · rintro before part after rfl hbef hpart
    obtain ⟨rest, hjoined, -⟩ := exists_joined hbef hpart after
    rw [hrooted, hjoined, isRooted_append hpart]
  · rwa [hels]
  · rw [hrooted, hels, ← elements_joined]
    exact LexicalPath.resolution_iff.mpr rfl
  · rintro base relative rfl hbase
    have hbaseNe : base ≠ [] := by
      rintro rfl
      exact Bool.false_ne_true hbase
    obtain ⟨rest, hjoined, -⟩ := exists_joined (forall_mem_nil _) hbaseNe
      [relative]
    rw [nil_append] at hjoined
    have hroot : isRooted (joinedParts [base, relative]) = true := by
      rw [hjoined, isRooted_append hbaseNe, hbase]
    refine ⟨hrooted.trans hroot, fun hup => ?_⟩
    have hspl : pathElements (joinedParts [base, relative]) =
        pathElements base ++ pathElements relative := by
      rw [elements_joined, flatMap_cons, flatMap_singleton]
    rw [hels, hspl, LexicalPath.resolve_append hup]
    exact suffix_append _ _

/-- A server and a share, written with native separators. -/
theorem map_native_share {s₁ s₂ s₃ : UInt8} {server share : Text}
    (hseps : ∀ s ∈ [s₁, s₂, s₃], isSeparator s = true)
    (hnam : ∀ name ∈ [server, share], name ≠ [] ∧ ∀ c ∈ name, isSeparator c = false) :
    (s₁ :: s₂ :: (server ++ s₃ :: share)).map
        (fun c => if isSeparator c then pathNativeSeparator else c) =
      pathNativeSeparator :: pathNativeSeparator :: (server ++ pathNativeSeparator :: share) := by
  have hname (name : Text) (hname : ∀ c ∈ name, isSeparator c = false) :
      name.map (fun c => if isSeparator c then pathNativeSeparator else c) = name := by
    rw [map_congr_left (g := id) fun c hc => by simp [hname c hc], map_id]
  simp only [forall_mem_cons] at hseps hnam
  simp only [map_cons, map_append, hseps.1, hseps.2.1, hseps.2.2.1, if_true,
    hname _ hnam.1.2, hname _ hnam.2.1.2]

theorem share_cleanPath {path result : Text} (h : StartsWithShare path)
    (hres : cleanPath path = some result) : StartsWithShare result := by
  obtain ⟨s₁, s₂, server, s₃, share, rest, hseps, hnam, hdot, -, hpath, hvol⟩ := volume_of_share h
  have htake : (path.take (volumeLength path)).map
      (fun c => if isSeparator c then pathNativeSeparator else c) =
        pathNativeSeparator :: pathNativeSeparator ::
          (server ++ pathNativeSeparator :: share) := by
    rw [hvol, hpath, take_left, map_native_share hseps hnam]
  refine ⟨pathNativeSeparator, pathNativeSeparator, server, pathNativeSeparator, share,
    by simp [isSeparator_native], hnam, hdot, ?_⟩
  rw [cleanPath] at hres
  split_ifs at hres
  simp only [htake] at hres
  split_ifs at hres
  all_goals
    rw [← Option.some.inj hres]
    simp only [append_assoc]
    exact prefix_append _ _

/-- The parts are joined if and only if, with separators between those that are not empty, they fit
in an `int32_t` and do not start with a server and a share. -/
theorem grayPathJoinParts_iff (parts : List Text) (hvolume : ∀ part ∈ parts, volumeLength part = 0) :
    (∃ path, grayPathJoinParts parts = some path ∧ IsJoin parts path) ↔
      (joinedParts parts).length + 1 < 2 ^ 31 ∧ ¬ StartsWithShare (joinedParts parts) := by
  have hbuf : joinPartsLoop parts [] = joinedParts parts := by
    rw [joinPartsLoop_eq, if_pos rfl]
  rw [grayPathJoinParts, hbuf]
  by_cases hall : ∀ part ∈ parts, part = []
  · rw [joined_eq_nil hall]
    refine iff_of_true ⟨[], rfl, fun _ => rfl, ?_, .inl rfl, ?_, ?_⟩ ⟨by decide, ?_⟩
    · rintro before part after rfl - hpart
      exact absurd (hall part (by simp)) hpart
    · rw [← elements_joined, joined_eq_nil hall]
      exact LexicalPath.resolution_iff.mpr rfl
    · rintro base relative rfl hbase
      rw [hall base (by simp)] at hbase
      exact nomatch hbase
    · rintro ⟨s₁, s₂, server, s₃, share, -, -, -, after, hpath⟩
      cases hpath
  · have hne : joinedParts parts ≠ [] := by
      obtain ⟨before, part, after, rfl, hbef, hpart⟩ := exists_first_part hall
      obtain ⟨rest, hjoined, -⟩ := exists_joined hbef hpart after
      rw [hjoined]
      exact append_ne_nil_of_left_ne_nil hpart rest
    rw [if_neg (mt length_eq_zero_iff.mp hne)]
    constructor
    · rintro ⟨path, hpath, hjoin⟩
      have hlen : (joinedParts parts).length + 1 < 2 ^ 31 := by
        by_contra hlen
        rw [cleanPath, if_pos (Nat.not_lt.mp hlen), ite_self] at hpath
        cases hpath
      rw [if_neg (by omega)] at hpath
      refine ⟨hlen, fun hshr => ?_⟩
      -- The prefix is written, and no name has one that is as long.
      obtain ⟨s₁, s₂, server, s₃, share, rest, -, hnam, -, -, -, hpre⟩ :=
        volume_of_share (share_cleanPath hshr hpath)
      simp only [forall_mem_cons, length_cons, length_append] at hnam hpre
      have hserver := length_pos_iff.mpr hnam.1.1
      rcases hjoin.volume with hzero | ⟨e, he, heq⟩
      · omega
      · have hmem : e ∈ pathElements path := mem_of_head? he
        have hle := volume_name_le (forall_mem_elements e hmem).2.2
        omega
    · rintro ⟨hlen, hshr⟩
      have hzero := volume_eq_zero (not_isDrive_joined hvolume) hshr
      rw [if_neg (by omega)]
      exact ⟨_, cleanPath_eq hzero hlen, isJoin_renderPath rfl hall⟩

/-- An absolute base and a path that leads up. -/
theorem grayPathJoinParts_iff_up :
    (∃ path, grayPathJoinParts [bytes "/usr", bytes "../lib"] = some path ∧
        IsJoin [bytes "/usr", bytes "../lib"] path) ↔
      (joinedParts [bytes "/usr", bytes "../lib"]).length + 1 < 2 ^ 31 ∧
        ¬ StartsWithShare (joinedParts [bytes "/usr", bytes "../lib"]) :=
  grayPathJoinParts_iff _ (by decide)

/-- The separator behind the root makes the relative part a server and a share. -/
theorem grayPathJoinParts_root : volumeLength (bytes "/") = 0 ∧ volumeLength (bytes "a/b") = 0 ∧
      grayPathJoinParts [bytes "/", bytes "a/b"] = some (bytes "//a/b/") ∧
      ¬ IsJoin [bytes "/", bytes "a/b"] (bytes "//a/b/") := by
  refine ⟨by decide, by decide, ?_, fun h => ?_⟩
  · have hbuf : grayPathJoinParts [bytes "/", bytes "a/b"] = cleanPath (bytes "//a/b") := rfl
    have hvol : volumeLength (bytes "//a/b") = 5 := by decide
    have hrest : (bytes "//a/b").drop 5 = [] := rfl
    rw [hbuf, cleanPath, if_neg (by decide), hvol]
    simp only [hrest, collectElements, collectElementsLoop]
    rfl
  · rcases h.volume with hzero | ⟨e, he, heq⟩
    · exact absurd hzero (by decide)
    · obtain rfl : bytes "a" = e := Option.some.inj he
      exact absurd heq (by decide)

end Grayscale
