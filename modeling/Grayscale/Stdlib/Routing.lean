import Grayscale.Library.InsertionOrder
import Grayscale.Util.Bytes

/-!
# Routing of requests

The matcher of route patterns, and the loop of `handle_connection` that selects a handler. The
matcher walks over the two C strings, and writes parameters into the request before it knows whether
the route matches.
-/

namespace Grayscale.Routing

open List
open Option (some.inj some_or)

/-! ### The matcher and the selection -/

structure CText where
  text : Text
  nul_not_mem : 0 ∉ text

/-- The C string of a copy: it ends at the first NUL. -/
def cText (t : Text) : CText where
  text := t.takeWhile (· != 0)
  nul_not_mem h := by simpa using mem_takeWhile_imp h

structure GrayRoute (H : Type) where
  method : CText
  pattern : CText
  handler : H

def grayServerRoute {H : Type} (routes : List (GrayRoute H)) (method pattern : Text) (handler : H) :
    List (GrayRoute H) := routes ++ [⟨cText method, cText pattern, handler⟩]

/-- A byte of a segment: the loops `while (*cursor && *cursor != '/')`. -/
def isSegmentByte (c : UInt8) : Bool := c != byte '/'

/-- The tests behind the loop of `match_route`. -/
def isConsumed (pattern path : Text) : Bool :=
  pattern == [] && path == [] || pattern == [] && path == [byte '/'] ||
    path == [] && pattern == [byte '/']

/-- `match_route`, with the parameters that it leaves in the map. -/
@[grind =] def matchRoute (pattern path : Text) (parameters : List (Text × Text)) :
    Bool × List (Text × Text) :=
  match pattern, path with
  | p :: pattern, c :: path =>
    if p = byte ':' then
      matchRoute (pattern.dropWhile isSegmentByte) ((c :: path).dropWhile isSegmentByte)
        (Entries.set parameters (pattern.takeWhile isSegmentByte)
          ((c :: path).takeWhile isSegmentByte))
    else if p ≠ c then (false, parameters)
    else matchRoute pattern path parameters
  | pattern, path => (isConsumed pattern path, parameters)
termination_by pattern.length
decreasing_by
  · have := length_dropWhile_le isSegmentByte pattern
    simp only [length_cons]
    omega
  · simp

variable {H : Type}

/-- The loop of `handle_connection` over the routes: the route whose handler runs, with the
parameters of the request. -/
def selectRoute (method path : CText) :
    List (GrayRoute H) → List (Text × Text) → Option (GrayRoute H × List (Text × Text))
  | [], _ => none
  | route :: routes, parameters =>
    if route.method.text = method.text then
      let found := matchRoute route.pattern.text path.text parameters
      if found.1 then some (route, found.2) else selectRoute method path routes found.2
    else selectRoute method path routes parameters

/-! ### What a route matches -/

/-- The texts between the slashes. -/
def segments (t : Text) : List Text := t.splitOnP (· == byte '/')

/-- A segment `:name` matches any one segment, and any other segment only itself. -/
def SegmentMatches (p t : Text) : Prop := p.head? = some (byte ':') ∨ p = t

/-- The segments of a pattern match those of a path, where one slash at the end of either is
ignored: it is an empty segment. -/
def ListMatches (P T : List Text) : Prop :=
  List.Forall₂ SegmentMatches P T ∨ (∃ T', T = T' ++ [[]] ∧ List.Forall₂ SegmentMatches P T') ∨
    ∃ P', P = P' ++ [[]] ∧ List.Forall₂ SegmentMatches P' T

def PathMatches (pattern path : Text) : Prop := ListMatches (segments pattern) (segments path)

/-- The names of a pattern, with the segments that they stand for. -/
def segmentBindings : List Text → List Text → List (Text × Text)
  | p :: P, t :: T =>
    if p.head? = some (byte ':') then (p.tail, t) :: segmentBindings P T else segmentBindings P T
  | _, _ => []

/-- The names of the pattern of a route, with the segments of the path. -/
def patternBindings (pattern path : Text) : List (Text × Text) :=
  segmentBindings (segments pattern) (segments path)

def GrayRoute.Serves (route : GrayRoute H) (method path : CText) : Prop :=
  route.method.text = method.text ∧ PathMatches route.pattern.text path.text

/-- The first route that serves the request runs, with its names bound to their segments and nothing
else; none runs where no route does. -/
def IsRouted (routes : List (GrayRoute H)) (method path : CText)
    (outcome : Option (GrayRoute H × List (Text × Text))) : Prop :=
  (∀ before route after, routes = before ++ route :: after → route.Serves method path →
    (∀ r ∈ before, ¬ r.Serves method path) →
    ∃ parameters, outcome = some (route, parameters) ∧ ∀ name, Entries.find parameters name =
        Entries.find (patternBindings route.pattern.text path.text).reverse name) ∧
  ((∀ r ∈ routes, ¬ r.Serves method path) → outcome = none)

/-! ### Attempts -/

/-- A pattern against a path, where a colon inside of a segment makes the text in front of it a
literal prefix of a parameter, and no parameter stands for the end of the path: whether they match,
and the names bound on the way. -/
@[grind =] def attempt : List Text → List Text → Bool × List (Text × Text)
  | [], [] => (true, [])
  | [], [[]] => (true, [])
  | [[]], [] => (true, [])
  | p :: P, t :: T =>
    match p.dropWhile (· != byte ':') with
    | [] => if p = t then attempt P T else (false, [])
    | _ :: name =>
      let literal := p.takeWhile (· != byte ':')
      if literal <+: t ∧ ¬ (t = literal ∧ T = []) then
        ((attempt P T).1, (name, t.drop literal.length) :: (attempt P T).2)
      else (false, [])
  | _, _ => (false, [])

/-- The names are set one after the other. -/
def setAll (parameters bindings : List (Text × Text)) : List (Text × Text) :=
  bindings.foldl (fun m e => Entries.set m e.1 e.2) parameters

/-- The segments, each behind a slash. -/
def slashed (S : List Text) : Text := S.flatMap (byte '/' :: ·)

theorem slashed_segments (t : Text) : slashed (segments t) = byte '/' :: t := by
  induction t with
  | nil => rfl
  | cons c t ih =>
    obtain ⟨s, S, hS⟩ := exists_cons_of_ne_nil (splitOnP_ne_nil (· == byte '/') t)
    rw [segments, hS] at ih
    rw [segments, splitOnP_cons_eq_if_modifyHead, hS]
    by_cases hc : c = byte '/'
    · subst hc
      rw [if_pos (beq_self_eq_true _), slashed, flatMap_cons, ← slashed, ih]
      rfl
    · rw [if_neg (by simpa using hc), modifyHead_cons, slashed, flatMap_cons]
      rw [slashed, flatMap_cons] at ih
      simpa using ih

theorem slash_not_mem_segments {t s : Text} (h : s ∈ segments t) : byte '/' ∉ s := fun hsla =>
  absurd (eq_false_of_mem_splitOnP h _ hsla) (by decide)

/-! ### The matcher on segments -/

theorem matchRoute_same {l : Text} (hl : byte ':' ∉ l) (pattern path : Text)
    (parameters : List (Text × Text)) :
    matchRoute (l ++ pattern) (l ++ path) parameters = matchRoute pattern path parameters := by
  induction l with
  | nil => rfl
  | cons c l ih =>
    rw [mem_cons, not_or] at hl
    rw [cons_append, cons_append, matchRoute, if_neg (Ne.symm hl.1),
      if_neg (not_not.mpr rfl), ih hl.2]

theorem matchRoute_literal {l t : Text} {T : List Text} (hcol : byte ':' ∉ l)
    (hsla : byte '/' ∉ l) (h : ¬ l <+: t) (pattern : Text) (parameters : List (Text × Text)) :
    matchRoute (l ++ pattern) (t ++ slashed T) parameters = (false, parameters) := by
  induction l generalizing t with
  | nil => exact absurd List.nil_prefix h
  | cons a l ih =>
    rw [mem_cons, not_or] at hcol hsla
    cases t with
    | nil =>
      cases T with
      | nil =>
        rw [cons_append, slashed, flatMap_nil, append_nil, matchRoute]
        · simp [isConsumed, -byte, Ne.symm hsla.1]
        · simp
      | cons t T =>
        rw [nil_append, slashed, flatMap_cons, cons_append, cons_append,
          matchRoute, if_neg (Ne.symm hcol.1), if_pos (Ne.symm hsla.1)]
    | cons b t =>
      rw [cons_append, cons_append, matchRoute, if_neg (Ne.symm hcol.1)]
      by_cases hab : a = b
      · subst hab
        rw [if_neg (not_not.mpr rfl)]
        exact ih hcol.2 hsla.2 fun hpre => h (cons_prefix_cons.mpr ⟨rfl, hpre⟩)
      · rw [if_pos hab]

theorem matchRoute_longer {c : UInt8} (hc : c ≠ byte '/') (P : List Text) (path : Text)
    (parameters : List (Text × Text)) :
    matchRoute (slashed P) (c :: path) parameters = (false, parameters) := by
  cases P with
  | nil =>
    rw [slashed, flatMap_nil, matchRoute]
    · simp [isConsumed, -byte, hc]
    · simp
  | cons p P =>
    rw [slashed, flatMap_cons, cons_append, matchRoute, if_neg (by decide), if_pos (Ne.symm hc)]

theorem takeWhile_segment {s : Text} (hs : byte '/' ∉ s) (S : List Text) :
    (s ++ slashed S).takeWhile isSegmentByte = s ∧
      (s ++ slashed S).dropWhile isSegmentByte = slashed S := by
  have hkeep : ∀ c ∈ s, isSegmentByte c = true := fun c hc =>
    bne_iff_ne.mpr fun h => hs (h ▸ hc)
  refine (dropWhile_append_of_head hkeep ?_).symm
  cases S with
  | nil => rfl
  | cons s' S => rfl

variable {p t : Text} {P T : List Text}

theorem matchRoute_segment (hp : byte '/' ∉ p) (ht : byte '/' ∉ t)
    (ih : ∀ parameters, matchRoute (slashed P) (slashed T) parameters =
      ((attempt P T).1, setAll parameters (attempt P T).2)) (parameters : List (Text × Text)) :
    matchRoute (p ++ slashed P) (t ++ slashed T) parameters =
      ((attempt (p :: P) (t :: T)).1, setAll parameters (attempt (p :: P) (t :: T)).2) := by
  have hspl := takeWhile_append_dropWhile (p := (· != byte ':')) (l := p)
  have hcol : byte ':' ∉ p.takeWhile (· != byte ':') := fun h => by
    simpa using mem_takeWhile_imp h
  have hsla : byte '/' ∉ p.takeWhile (· != byte ':') := fun h =>
    hp (takeWhile_subset _ h)
  have hsla' : byte '/' ∉ p.dropWhile (· != byte ':') := fun h =>
    hp (dropWhile_subset _ h)
  have hhead := head?_dropWhile_not (· != byte ':') p
  rw [attempt]
  generalize p.takeWhile (· != byte ':') = literal at *
  cases hrest : p.dropWhile (· != byte ':') with
  | nil =>
    rw [hrest, append_nil] at hspl
    subst hspl
    simp only
    by_cases hpre : literal <+: t
    · obtain ⟨v, rfl⟩ := hpre
      rw [append_assoc, matchRoute_same hcol]
      cases v with
      | nil => rw [append_nil, if_pos rfl, nil_append, ih]
      | cons c v =>
        have hc : c ≠ byte '/' := fun h => ht (h ▸ by simp)
        rw [if_neg (by simp), cons_append, matchRoute_longer hc]
        rfl
    · have hne : literal ≠ t := fun h => hpre (h ▸ prefix_rfl)
      rw [if_neg hne, matchRoute_literal hcol hsla hpre]
      rfl
  | cons colon name =>
    rw [hrest] at hspl hsla' hhead
    obtain rfl : colon = byte ':' := by simpa using hhead
    rw [mem_cons, not_or] at hsla'
    rw [← hspl]
    simp only
    by_cases hpre : literal <+: t
    · obtain ⟨v, rfl⟩ := hpre
      have hv : byte '/' ∉ v := fun h => ht (mem_append_right _ h)
      rw [append_assoc, append_assoc, matchRoute_same hcol]
      by_cases hend : v = [] ∧ T = []
      · obtain ⟨rfl, rfl⟩ := hend
        rw [if_neg (by simp), nil_append, slashed, slashed, flatMap_nil, cons_append,
          matchRoute]
        · rfl
        · simp
      · have hcond : literal <+: literal ++ v ∧ ¬ (literal ++ v = literal ∧ T = []) :=
          ⟨prefix_append _ _, fun h => hend ⟨append_right_eq_self.mp h.1, h.2⟩⟩
        have hne : v ++ slashed T ≠ [] := by
          intro h
          obtain ⟨hvnil, hTnil⟩ := append_eq_nil_iff.mp h
          refine hend ⟨hvnil, ?_⟩
          cases T with
          | nil => rfl
          | cons t' T' => cases hTnil
        obtain ⟨c, path, hpath⟩ := exists_cons_of_ne_nil hne
        have hval := takeWhile_segment hv T
        have hname := takeWhile_segment hsla'.2 P
        rw [hpath] at hval
        rw [if_pos hcond, hpath, cons_append, matchRoute, if_pos rfl, hname.1, hname.2, hval.1,
          hval.2, ih, drop_left]
        rfl
    · rw [if_neg fun h => hpre h.1, append_assoc,
        matchRoute_literal hcol hsla hpre]
      rfl

theorem matchRoute_slashed (hP : ∀ p ∈ P, byte '/' ∉ p)
    (hT : ∀ t ∈ T, byte '/' ∉ t) (parameters : List (Text × Text)) :
    matchRoute (slashed P) (slashed T) parameters =
      ((attempt P T).1, setAll parameters (attempt P T).2) := by
  induction P generalizing T parameters with
  | nil =>
    match T, hT with
    | [], _ =>
      rw [slashed, flatMap_nil, matchRoute]
      · rfl
      · simp
    | [[]], _ =>
      rw [slashed, flatMap_nil, matchRoute]
      · rfl
      · simp
    | (c :: t) :: T, _ =>
      rw [slashed, flatMap_nil, matchRoute]
      · rfl
      · simp
    | [] :: t :: T, _ =>
      rw [slashed, flatMap_nil, matchRoute]
      · rfl
      · simp
  | cons p P ih =>
    obtain ⟨hp, hP⟩ := forall_mem_cons.mp hP
    cases T with
    | nil =>
      have hpath : slashed ([] : List Text) = [] := rfl
      rw [hpath, slashed, flatMap_cons, cons_append, matchRoute]
      · match p, P with
        | [], [] => rfl
        | [], q :: Q => rfl
        | c :: p, P => rfl
      · simp
    | cons t T =>
      obtain ⟨ht, hT⟩ := forall_mem_cons.mp hT
      have hst : matchRoute (slashed (p :: P)) (slashed (t :: T)) parameters =
          matchRoute (p ++ slashed P) (t ++ slashed T) parameters :=
        matchRoute_same (l := [byte '/']) (by decide) _ _ _
      rw [hst]
      exact matchRoute_segment hp ht (ih hP hT) parameters

theorem matchRoute_eq (pattern path : Text) (parameters : List (Text × Text)) :
    matchRoute pattern path parameters = ((attempt (segments pattern) (segments path)).1,
        setAll parameters (attempt (segments pattern) (segments path)).2) := by
  rw [← matchRoute_slashed (fun _ => slash_not_mem_segments) (fun _ => slash_not_mem_segments),
    slashed_segments, slashed_segments]
  exact (matchRoute_same (l := [byte '/']) (by decide) _ _ _).symm

/-! ### Attempts that succeed -/

/-- No `:name` stands for an empty segment at the end of the path. -/
def NamesStand (P T : List Text) : Prop :=
  ∀ k p, P[k]? = some p → p.head? = some (byte ':') → T[k]? = some [] → k + 1 < T.length

theorem namesStand_cons : NamesStand (p :: P) (t :: T) ↔
    (p.head? = some (byte ':') → t = [] → T ≠ []) ∧ NamesStand P T := by
  constructor
  · intro h
    refine ⟨fun hp ht hT => ?_, fun k q hq hname ht => ?_⟩
    · have := h 0 p rfl hp (by rw [ht]; rfl)
      rw [hT] at this
      simp at this
    · have := h (k + 1) q hq hname ht
      simpa using this
  · rintro ⟨hfst, hrest⟩ k q hq hname ht
    cases k with
    | zero =>
      have hT := hfst (some.inj hq ▸ hname) (some.inj ht)
      have := length_pos_iff.mpr hT
      simpa using this
    | succ k =>
      have := hrest k q hq hname ht
      simpa using this

theorem append_singleton_cons {α : Type} {x a : α} {l m : List α} (h : x :: l = m ++ [a]) :
    m = [] ∧ x = a ∧ l = [] ∨ ∃ m', m = x :: m' ∧ l = m' ++ [a] := by
  cases m with
  | nil =>
    obtain ⟨rfl, rfl⟩ := List.cons.inj h
    exact .inl ⟨rfl, rfl, rfl⟩
  | cons y m =>
    obtain ⟨rfl, rfl⟩ := List.cons.inj h
    exact .inr ⟨m, rfl, rfl⟩

theorem listMatches_cons :
    ListMatches (p :: P) (t :: T) ↔ SegmentMatches p t ∧ ListMatches P T := by
  constructor
  · rintro (h | ⟨T', hT, h⟩ | ⟨P', hP, h⟩)
    · obtain ⟨hpt, h⟩ := forall₂_cons.mp h
      exact ⟨hpt, .inl h⟩
    · rcases append_singleton_cons hT with ⟨rfl, -, -⟩ | ⟨T'', rfl, rfl⟩
      · cases h
      · obtain ⟨hpt, h⟩ := forall₂_cons.mp h
        exact ⟨hpt, .inr (.inl ⟨T'', rfl, h⟩)⟩
    · rcases append_singleton_cons hP with ⟨rfl, -, -⟩ | ⟨P'', rfl, rfl⟩
      · cases h
      · obtain ⟨hpt, h⟩ := forall₂_cons.mp h
        exact ⟨hpt, .inr (.inr ⟨P'', rfl, h⟩)⟩
  · rintro ⟨hpt, h | ⟨T', rfl, h⟩ | ⟨P', rfl, h⟩⟩
    · exact .inl (.cons hpt h)
    · exact .inr (.inl ⟨t :: T', rfl, .cons hpt h⟩)
    · exact .inr (.inr ⟨p :: P', rfl, .cons hpt h⟩)

theorem attempt_name (hp : p.head? = some (byte ':')) : attempt (p :: P) (t :: T) =
      if t = [] ∧ T = [] then (false, [])
      else ((attempt P T).1, (p.tail, t) :: (attempt P T).2) := by
  obtain ⟨c, p, rfl⟩ := exists_cons_of_ne_nil (l := p) (by rintro rfl; cases hp)
  obtain rfl : c = byte ':' := some.inj hp
  rw [attempt, dropWhile_cons_of_neg (by simp), takeWhile_cons_of_neg (by simp)]
  simp only [length_nil, drop_zero, tail_cons]
  by_cases hend : t = [] ∧ T = []
  · rw [if_pos hend, if_neg fun h => h.2 hend]
  · rw [if_neg hend, if_pos ⟨List.nil_prefix, hend⟩]

theorem attempt_self (p : Text) (P T : List Text) :
    (attempt (p :: P) (p :: T)).1 = (attempt P T).1 ∧
      Entries.keys (attempt P T).2 ⊆ Entries.keys (attempt (p :: P) (p :: T)).2 := by
  rw [attempt]
  cases hrest : p.dropWhile (· != byte ':') with
  | nil => simp
  | cons colon name =>
    have hspl := takeWhile_append_dropWhile (p := (· != byte ':')) (l := p)
    rw [hrest] at hspl
    have hcond : p.takeWhile (· != byte ':') <+: p ∧
        ¬ (p = p.takeWhile (· != byte ':') ∧ T = []) := by
      refine ⟨List.takeWhile_prefix _, fun h => ?_⟩
      rw [← h.1] at hspl
      exact cons_ne_nil _ _ (append_right_eq_self.mp hspl)
    simp only [if_pos hcond, Entries.keys_cons, subset_cons_self, and_self]

/-- An attempt on segments that match succeeds, unless a name stands for nothing at the end; and it
binds the names of the pattern. -/
theorem attempt_of_listMatches (h : ListMatches P T) :
    ((attempt P T).1 = true ↔ NamesStand P T) ∧ ((attempt P T).1 = true →
      Entries.keys (segmentBindings P T) ⊆ Entries.keys (attempt P T).2) := by
  induction P generalizing T with
  | nil =>
    have hT : T = [] ∨ T = [[]] := by
      rcases h with h | ⟨T', rfl, h⟩ | ⟨P', hP, -⟩
      · exact .inl (forall₂_nil_left_iff.mp h)
      · rw [forall₂_nil_left_iff.mp h]
        exact .inr rfl
      · simp at hP
    rcases hT with rfl | rfl <;>
      exact ⟨iff_of_true rfl fun _ _ hp => by simp at hp, fun _ => nil_subset _⟩
  | cons p P ih =>
    cases T with
    | nil =>
      obtain ⟨rfl, rfl⟩ : p = [] ∧ P = [] := by
        rcases h with h | ⟨T', hT, -⟩ | ⟨P', hP, h⟩
        · cases h
        · simp at hT
        · rw [forall₂_nil_right_iff.mp h] at hP
          simpa using hP
      exact ⟨iff_of_true rfl fun _ _ _ _ ht => by simp at ht, fun _ => nil_subset _⟩
    | cons t T =>
      obtain ⟨hpt, h⟩ := listMatches_cons.mp h
      obtain ⟨hok, hkeys⟩ := ih h
      rw [namesStand_cons, segmentBindings]
      by_cases hname : p.head? = some (byte ':')
      · rw [attempt_name hname, if_pos hname]
        by_cases hend : t = [] ∧ T = []
        · rw [if_pos hend]
          exact ⟨iff_of_false Bool.false_ne_true fun hs => hs.1 hname hend.1 hend.2, nofun⟩
        · rw [if_neg hend]
          refine ⟨hok.trans ⟨fun hs => ⟨fun _ ht hT => hend ⟨ht, hT⟩, hs⟩, And.right⟩, fun hs => ?_⟩
          rw [Entries.keys_cons, Entries.keys_cons]
          exact cons_subset_cons _ (hkeys hs)
      · obtain rfl : p = t := hpt.resolve_left hname
        obtain ⟨hself, hsub⟩ := attempt_self p P T
        rw [hself, if_neg hname]
        exact ⟨hok.trans ⟨fun hs => ⟨fun hcol => absurd hcol hname, hs⟩, And.right⟩,
          fun hs => List.Subset.trans (hkeys hs) hsub⟩

/-! ### The selection -/

theorem find_setAll (parameters bindings : List (Text × Text)) (name : Text) :
    Entries.find (setAll parameters bindings) name =
      (Entries.find bindings.reverse name).or (Entries.find parameters name) := by
  induction bindings generalizing parameters with
  | nil => rfl
  | cons e bindings ih =>
    rw [setAll, foldl_cons, ← setAll, ih, Entries.find_set, reverse_cons,
      Entries.find_append, Entries.find_cons, Option.or_assoc]
    congr 1
    by_cases he : e.1 = name
    · rw [if_pos he, if_pos he.symm, some_or]
    · rw [if_neg he, if_neg (Ne.symm he)]
      rfl

theorem find_reverse_eq_none_iff {bindings : List (Text × Text)} {name : Text} :
    Entries.find bindings.reverse name = none ↔ name ∉ Entries.keys bindings := by
  rw [Entries.find_eq_none_iff, Entries.keys, Entries.keys, map_reverse, mem_reverse]

@[grind =] def GrayRoute.attempt (route : GrayRoute H) (path : CText) : Bool × List (Text × Text) :=
  Routing.attempt (segments route.pattern.text) (segments path.text)

/-- The names that the routes of the method bind. -/
@[grind =]
def triedBindings (method path : CText) (routes : List (GrayRoute H)) : List (Text × Text) :=
  routes.flatMap fun route =>
    if route.method.text = method.text then (route.attempt path).2 else []

theorem selectRoute_cons (method path : CText) (route : GrayRoute H) (routes : List (GrayRoute H))
    (parameters : List (Text × Text)) : selectRoute method path (route :: routes) parameters =
      if route.method.text = method.text ∧ (route.attempt path).1 = true then
        some (route, setAll parameters (route.attempt path).2)
      else selectRoute method path routes
        (setAll parameters (triedBindings method path [route])) := by
  rw [selectRoute, matchRoute_eq, triedBindings, flatMap_singleton]
  change (if route.method.text = method.text then
    if (route.attempt path).1 = true then some (route, setAll parameters (route.attempt path).2)
    else selectRoute method path routes (setAll parameters (route.attempt path).2)
    else selectRoute method path routes parameters) = _
  by_cases hmeth : route.method.text = method.text
  · by_cases hok : (route.attempt path).1 = true
    · rw [if_pos hmeth, if_pos hok, if_pos ⟨hmeth, hok⟩]
    · rw [if_pos hmeth, if_neg hok, if_neg fun h => hok h.2, if_pos hmeth]
  · rw [if_neg hmeth, if_neg fun h => hmeth h.1, if_neg hmeth]
    rfl

variable {method path : CText}

theorem selectRoute_append {before : List (GrayRoute H)}
    (hbef : ∀ r ∈ before, r.method.text = method.text → (r.attempt path).1 = false)
    (routes : List (GrayRoute H)) (parameters : List (Text × Text)) :
    selectRoute method path (before ++ routes) parameters =
      selectRoute method path routes (setAll parameters (triedBindings method path before)) := by
  induction before generalizing parameters with
  | nil => rfl
  | cons route before ih =>
    obtain ⟨hroute, hbef⟩ := forall_mem_cons.mp hbef
    have hnot : ¬ (route.method.text = method.text ∧ (route.attempt path).1 = true) := fun h =>
      Bool.false_ne_true ((hroute h.1).symm.trans h.2)
    have hspl : triedBindings method path (route :: before) =
        triedBindings method path [route] ++ triedBindings method path before := by
      rw [triedBindings, flatMap_cons, triedBindings, triedBindings, flatMap_singleton]
    rw [cons_append, selectRoute_cons, if_neg hnot, ih hbef, hspl, setAll, setAll, setAll,
      foldl_append]

theorem mem_of_selectRoute {routes : List (GrayRoute H)}
    {parameters : List (Text × Text)} {route : GrayRoute H} {result : List (Text × Text)}
    (h : selectRoute method path routes parameters = some (route, result)) :
    route ∈ routes ∧ route.method.text = method.text ∧ (route.attempt path).1 = true := by
  induction routes generalizing parameters with
  | nil => cases h
  | cons r routes ih =>
    rw [selectRoute_cons] at h
    split_ifs at h with hr
    · obtain ⟨rfl, -⟩ := Prod.mk.inj (some.inj h)
      exact ⟨mem_cons_self, hr⟩
    · exact ⟨mem_cons_of_mem _ (ih h).1, (ih h).2⟩

theorem exists_selectRoute {before : List (GrayRoute H)}
    (h : ∃ r ∈ before, r.method.text = method.text ∧ (r.attempt path).1 = true)
    (after : List (GrayRoute H)) (parameters : List (Text × Text)) :
    ∃ r ∈ before, ∃ result, selectRoute method path (before ++ after) parameters =
      some (r, result) := by
  induction before generalizing parameters with
  | nil => simp at h
  | cons route before ih =>
    rw [cons_append, selectRoute_cons]
    by_cases hroute : route.method.text = method.text ∧ (route.attempt path).1 = true
    · rw [if_pos hroute]
      exact ⟨route, mem_cons_self, _, rfl⟩
    · rw [if_neg hroute]
      have hrest : ∃ r ∈ before, r.method.text = method.text ∧ (r.attempt path).1 = true := by
        obtain ⟨r, hr, hok⟩ := h
        rcases mem_cons.mp hr with rfl | hr
        · exact absurd hok hroute
        · exact ⟨r, hr, hok⟩
      obtain ⟨r, hr, result, hres⟩ := ih hrest _
      exact ⟨r, mem_cons_of_mem _ hr, result, hres⟩

theorem mem_keys_triedBindings {routes : List (GrayRoute H)} {name : Text} :
    name ∈ Entries.keys (triedBindings method path routes) ↔
      ∃ r ∈ routes, r.method.text = method.text ∧ name ∈ Entries.keys (r.attempt path).2 := by
  rw [triedBindings, Entries.keys, map_flatMap, mem_flatMap]
  refine exists_congr fun r => and_congr_right fun _ => ?_
  by_cases hmeth : r.method.text = method.text
  · rw [if_pos hmeth]
    exact (and_iff_right hmeth).symm
  · rw [if_neg hmeth]
    exact iff_of_false not_mem_nil fun h => hmeth h.1

theorem find_bindings_iff {tried own names : List (Text × Text)}
    (hnam : Entries.keys names ⊆ Entries.keys own) :
    (∀ name, Entries.find (setAll (setAll [] tried) own) name = Entries.find names.reverse name) ↔
      ∀ name, name ∈ Entries.keys own ∨ name ∈ Entries.keys tried →
        ∃ text, Entries.find own.reverse name = some text ∧
          Entries.find names.reverse name = some text := by
  refine forall_congr' fun name => ?_
  rw [find_setAll, find_setAll]
  have hnil : Entries.find ([] : List (Text × Text)) name = none := rfl
  rw [hnil, Option.or_none]
  by_cases hown : name ∈ Entries.keys own
  · obtain ⟨text, htext⟩ := Option.ne_none_iff_exists'.mp
      (mt find_reverse_eq_none_iff.mp (not_not.mpr hown))
    rw [htext, some_or]
    exact ⟨fun h _ => ⟨text, rfl, h.symm⟩, fun h => by
      obtain ⟨text', heq, hfind⟩ := h (.inl hown)
      rw [hfind, ← heq]⟩
  · have hnone := find_reverse_eq_none_iff.mpr hown
    have hnone' := find_reverse_eq_none_iff.mpr fun h => hown (hnam h)
    rw [hnone, hnone', Option.none_or, find_reverse_eq_none_iff]
    exact ⟨fun h hor => absurd hor (not_or.mpr ⟨hown, h⟩), fun h htried => by
      obtain ⟨text, hnot, -⟩ := h (.inr htried)
      cases hnot⟩

/-- Two routes of one method, of which the first one has a segment more. -/
def staleRoutes : List (GrayRoute ℕ) :=
  grayServerRoute (grayServerRoute [] (bytes "GET") (bytes "/:a/x") 0) (bytes "GET") (bytes "/:b") 1

end Grayscale.Routing
