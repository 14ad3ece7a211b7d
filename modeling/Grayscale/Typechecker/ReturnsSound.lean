import Grayscale.Typechecker.Returns

/-!
# The missing-return analysis against executions

An execution chooses the outcome of every condition, the number of iterations of every loop and the
value of every `when` subject, among those of its type. A function body that `all_paths_return`
accepts is left at its closing brace only through a `#strict` `when` that has no branch for the
value of its subject, and the exhaustiveness check lets such a `when` pass: the combined bits of a
flags enum are no variant of it, and a member of a variable counts as a variant.
-/

namespace Grayscale

open List
open Bool (and_eq_true or_eq_true)

/-! ### Executions -/

/-- How the execution of a statement ends. -/
inductive Outcome
  | normal
  | returned
  | panicked
  | broke (label : Option Text)
  | continued (label : Option Text)
  deriving DecidableEq

/-- The outcome of a loop whose body ends so; `none` when the next iteration follows. -/
def Outcome.leaveLoop (label : Option Text) : Outcome → Option Outcome
  | .normal => none
  | .continued none => none
  | .continued (some target) =>
    if label = some target then none else some (.continued (some target))
  | .broke none => some .normal
  | .broke (some target) =>
    if label = some target then some .normal else some (.broke (some target))
  | outcome => some outcome

/-- Whether a branch has a value that is sure to equal the subject. -/
def SurelyMatches (enums : Enums) (values : List CaseValue) (v : SubjectValue) : Prop :=
  ∃ c ∈ values, caseDenotes enums c = some v

/-- Whether a branch has a value that may equal the subject. -/
def MayMatch (enums : Enums) (values : List CaseValue) (v : SubjectValue) : Prop :=
  ∃ c ∈ values, caseDenotes enums c = none ∨ caseDenotes enums c = some v

/-- What is executed: a statement, a sequence of them, or the iterations of a loop. -/
inductive Task
  | statement (s : Statement)
  | sequence (statements : List Statement)
  | iterations (kind : LoopKind) (label : Option Text) (body : Statement)

/-- Whether a statement evaluates an expression of its own, which may panic. -/
def Statement.evaluates : Statement → Bool
  | .returnStatement | .plain | .ifStatement _ _ | .whenStatement _ _ _ _ => true
  | .loopStatement kind _ _ => kind != .loop
  | _ => false

inductive Exec (enums : Enums) : Task → Outcome → Prop
  | returned : Exec enums (.statement .returnStatement) .returned
  | plain : Exec enums (.statement .plain) .normal
  | panicked {s : Statement} (h : s.evaluates = true) : Exec enums (.statement s) .panicked
  | breakJump (label : Option Text) :
    Exec enums (.statement (.breakStatement label)) (.broke label)
  | continueJump (label : Option Text) :
    Exec enums (.statement (.continueStatement label)) (.continued label)
  | block {statements : List Statement} {o : Outcome} (h : Exec enums (.sequence statements) o) :
    Exec enums (.statement (.block statements)) o
  | consequence {consequence : Statement} {alternative : Option Statement} {o : Outcome}
    (h : Exec enums (.statement consequence) o) :
    Exec enums (.statement (.ifStatement consequence alternative)) o
  | alternative {consequence alternative : Statement} {o : Outcome}
    (h : Exec enums (.statement alternative) o) :
    Exec enums (.statement (.ifStatement consequence (some alternative))) o
  | noAlternative {consequence : Statement} :
    Exec enums (.statement (.ifStatement consequence none)) .normal
  | whenCase {subject : SubjectType} {before after : List (WhenCase Statement)}
    {case : WhenCase Statement} {defaultBody : Option Statement} {isStrict : Bool}
    {v : SubjectValue} {o : Outcome} (hv : subject.HasValue v)
    (hbefore : ∀ c ∈ before, ¬ SurelyMatches enums c.values v)
    (hmatch : MayMatch enums case.values v) (h : Exec enums (.statement case.body) o) :
    Exec enums (.statement (.whenStatement subject (before ++ case :: after) defaultBody isStrict)) o
  | whenDefault {subject : SubjectType} {cases : List (WhenCase Statement)}
    {defaultBody : Statement} {isStrict : Bool} {v : SubjectValue} {o : Outcome}
    (hv : subject.HasValue v) (hcases : ∀ c ∈ cases, ¬ SurelyMatches enums c.values v)
    (h : Exec enums (.statement defaultBody) o) :
    Exec enums (.statement (.whenStatement subject cases (some defaultBody) isStrict)) o
  | whenNone {subject : SubjectType} {cases : List (WhenCase Statement)} {isStrict : Bool}
    {v : SubjectValue} (hv : subject.HasValue v)
    (hcases : ∀ c ∈ cases, ¬ SurelyMatches enums c.values v) :
    Exec enums (.statement (.whenStatement subject cases none isStrict)) .normal
  | loop {kind : LoopKind} {label : Option Text} {body : Statement} {o : Outcome}
    (h : Exec enums (.iterations kind label body) o) :
    Exec enums (.statement (.loopStatement kind label body)) o
  | nil : Exec enums (.sequence []) .normal
  | cons {s : Statement} {l : List Statement} {o : Outcome}
    (hs : Exec enums (.statement s) .normal) (hl : Exec enums (.sequence l) o) :
    Exec enums (.sequence (s :: l)) o
  | stop {s : Statement} {l : List Statement} {o : Outcome} (hs : Exec enums (.statement s) o)
    (ho : o ≠ .normal) : Exec enums (.sequence (s :: l)) o
  | done {kind : LoopKind} {label : Option Text} {body : Statement} (h : kind ≠ .loop) :
    Exec enums (.iterations kind label body) .normal
  | again {kind : LoopKind} {label : Option Text} {body : Statement} {o o' : Outcome}
    (hbody : Exec enums (.statement body) o) (ho : o.leaveLoop label = none)
    (hnext : Exec enums (.iterations kind label body) o') :
    Exec enums (.iterations kind label body) o'
  | leave {kind : LoopKind} {label : Option Text} {body : Statement} {o o' : Outcome}
    (hbody : Exec enums (.statement body) o) (ho : o.leaveLoop label = some o') :
    Exec enums (.iterations kind label body) o'

/-! ### The end of a path -/

/-- The `#strict` `when` statements without a default that end a path through a statement, and that
an execution reaches. -/
inductive Reaches (enums : Enums) : Statement → StrictWhen → Prop
  | here {subject : SubjectType} {cases : List (WhenCase Statement)} :
    Reaches enums (.whenStatement subject cases none true) (strictWhen subject cases)
  | last {l : List Statement} {s : Statement} {w : StrictWhen}
    (hl : ∀ t ∈ l, Exec enums (.statement t) .normal) (hs : Reaches enums s w) :
    Reaches enums (.block (l ++ [s])) w
  | consequence {consequence : Statement} {alternative : Option Statement} {w : StrictWhen}
    (h : Reaches enums consequence w) : Reaches enums (.ifStatement consequence alternative) w
  | alternative {consequence alternative : Statement} {w : StrictWhen}
    (h : Reaches enums alternative w) :
    Reaches enums (.ifStatement consequence (some alternative)) w
  | whenCase {subject : SubjectType} {before after : List (WhenCase Statement)}
    {case : WhenCase Statement} {defaultBody : Option Statement} {isStrict : Bool}
    {v : SubjectValue} {w : StrictWhen} (hv : subject.HasValue v)
    (hbefore : ∀ c ∈ before, ¬ SurelyMatches enums c.values v)
    (hmatch : MayMatch enums case.values v) (h : Reaches enums case.body w) :
    Reaches enums (.whenStatement subject (before ++ case :: after) defaultBody isStrict) w
  | whenDefault {subject : SubjectType} {cases : List (WhenCase Statement)}
    {defaultBody : Statement} {isStrict : Bool} {v : SubjectValue} {w : StrictWhen}
    (hv : subject.HasValue v) (hcases : ∀ c ∈ cases, ¬ SurelyMatches enums c.values v)
    (h : Reaches enums defaultBody w) :
    Reaches enums (.whenStatement subject cases (some defaultBody) isStrict) w

/-- Every value of the subject has a branch that is sure to match it. -/
def StrictWhen.Handles (enums : Enums) (w : StrictWhen) : Prop :=
  ∀ v, w.subject.HasValue v → SurelyMatches enums w.values v

/-- The subject is a `bool`, or of an enum other than a flags enum, of which a case value that
counts as covering a variant is the value of that variant. -/
def StrictWhen.Regular (enums : Enums) (w : StrictWhen) : Prop :=
  match w.subject with
  | .enum e => e.isFlags = false ∧ (w.values.findSome? (caseEnumName enums)).bind enums = some e ∧
      ∀ c ∈ w.values, ∀ v ∈ e.variants.zipIdx, caseCovers v.2 v.1.1 c = true →
        caseDenotes enums c = some v.1.2
  | .bool => w.values.findSome? (caseEnumName enums) = none
  | .other => False
/-! ### The exhaustiveness check -/

theorem mem_zipIdx_of_mem_map_snd {l : List (Text × SubjectValue)} {v : SubjectValue}
    (h : v ∈ l.map Prod.snd) : ∃ p ∈ l.zipIdx, p.1.2 = v := by
  obtain ⟨p, hp, rfl⟩ := mem_map.mp h
  obtain ⟨i, hi⟩ := getElem?_of_mem hp
  exact ⟨(p, i), mk_mem_zipIdx_iff_getElem?.mpr hi, rfl⟩

variable {enums : Enums} {w : StrictWhen}

theorem StrictWhen.Regular.handles (hregular : w.Regular enums)
    (hstr : strictErrors enums w = []) : w.Handles enums := by
  obtain ⟨subject, values⟩ := w
  unfold strictErrors at hstr
  have herr : ¬ subject.isErrorCode = true := fun herr => by
    rw [if_pos herr] at hstr
    cases hstr
  rw [if_neg herr] at hstr
  cases subject with
  | enum e =>
    obtain ⟨hflags, henum, hden⟩ := hregular
    obtain ⟨enumName, hname, hdecl⟩ := Option.bind_eq_some_iff.mp henum
    rw [hname] at hstr
    dsimp only at hstr
    rw [hdecl] at hstr
    intro v hv
    change e.HasValue v at hv
    unfold EnumDeclaration.HasValue at hv
    rw [hflags, if_neg Bool.false_ne_true] at hv
    obtain ⟨p, hp, rfl⟩ := mem_zipIdx_of_mem_map_snd hv
    have hcovered := filter_eq_nil_iff.mp (map_eq_nil_iff.mp hstr) p hp
    rw [Bool.not_eq_true', Bool.not_eq_false, any_eq_true] at hcovered
    obtain ⟨c, hc, hcovers⟩ := hcovered
    exact ⟨c, hc, hden c hc p hp hcovers⟩
  | bool =>
    change values.findSome? (caseEnumName enums) = none at hregular
    dsimp only at hstr
    rw [hregular] at hstr
    obtain ⟨htrue, hfalse⟩ := append_eq_nil_iff.mp hstr
    have hmat : ∀ b, values.any (isBoolValue b) = true → SurelyMatches enums values (.bool b) := by
      intro b h
      obtain ⟨c, hc, hb⟩ := any_eq_true.mp h
      refine ⟨c, hc, ?_⟩
      cases c <;> simp_all [isBoolValue, caseDenotes]
    rintro v ⟨b, rfl⟩
    cases b with
    | true => exact hmat true (by_contra fun h => by rw [if_neg h] at htrue; cases htrue)
    | false => exact hmat false (by_contra fun h => by rw [if_neg h] at hfalse; cases hfalse)
  | other => exact hregular.elim

/-! ### Breaks -/

variable {label : Option Text} {isNested : Bool} {cases : List (WhenCase Statement)}

theorem casesLoopBreak_of_mem {c : WhenCase Statement} (hc : c ∈ cases)
    (h : containsLoopBreak label c.body isNested = true) :
    casesLoopBreak label cases isNested = true := by
  induction cases with
  | nil => cases hc
  | cons d l ih =>
    obtain ⟨values, body⟩ := d
    rw [casesLoopBreak, or_eq_true]
    rcases mem_cons.mp hc with rfl | hc
    · exact .inl h
    · exact .inr (ih hc)

theorem containsLoopBreak_ifStatement
    {consequence : Statement} {alternative : Option Statement} :
    containsLoopBreak label (.ifStatement consequence alternative) isNested =
      (containsLoopBreak label consequence isNested ||
        alternative.any (containsLoopBreak label · isNested)) := by
  cases alternative with
  | none => rw [containsLoopBreak, Option.any_none, Bool.or_false]
  | some alternative => rw [containsLoopBreak, Option.any_some]

theorem containsLoopBreak_whenStatement
    {subject : SubjectType} {cases : List (WhenCase Statement)} {defaultBody : Option Statement}
    {isStrict : Bool} :
    containsLoopBreak label (.whenStatement subject cases defaultBody isStrict) isNested =
      (casesLoopBreak label cases isNested ||
        defaultBody.any (containsLoopBreak label · isNested)) := by
  cases defaultBody with
  | none => rw [containsLoopBreak, Option.any_none, Bool.or_false]
  | some defaultBody => rw [containsLoopBreak, Option.any_some]

/-- Whether `contains_loop_break`, for the loop of a label, finds the break that an execution ends
with. -/
def BreakFound (label : Option Text) (find : Bool → Bool) : Outcome → Prop
  | .broke none => find false = true
  | .broke (some target) => label = some target → ∀ isNested, find isNested = true
  | _ => True

theorem BreakFound.mono {find find' : Bool → Bool} {o : Outcome}
    (h : BreakFound label find o) (hle : ∀ isNested, find isNested = true → find' isNested = true) :
    BreakFound label find' o := by
  cases o with
  | broke target =>
    cases target with
    | none => exact hle _ h
    | some target => exact fun htgt isNested => hle _ (h htgt isNested)
  | _ => trivial

/-- The function of `contains_loop_break` for a task. -/
def taskLoopBreak (label : Option Text) : Task → Bool → Bool
  | .statement s => containsLoopBreak label s
  | .sequence l => anyLoopBreak label l
  | .iterations _ _ body => fun _ => label.isSome && containsLoopBreak label body true

theorem Exec.breakFound {t : Task} {o : Outcome} (h : Exec enums t o)
    (label : Option Text) : BreakFound label (taskLoopBreak label t) o := by
  induction h with
  | returned | plain | panicked | noAlternative | whenNone | continueJump | nil | done => trivial
  | breakJump target =>
    cases target with
    | none => rfl
    | some target => exact fun htgt isNested => beq_iff_eq.mpr htgt
  | block _ ih => exact ih
  | consequence _ ih =>
    refine ih.mono fun isNested hfnd => ?_
    rw [taskLoopBreak, containsLoopBreak_ifStatement, or_eq_true]
    exact .inl hfnd
  | alternative _ ih =>
    refine ih.mono fun isNested hfnd => ?_
    rw [taskLoopBreak, containsLoopBreak_ifStatement, or_eq_true]
    exact .inr hfnd
  | whenCase _ _ _ _ ih =>
    refine ih.mono fun isNested hfnd => ?_
    rw [taskLoopBreak, containsLoopBreak_whenStatement, or_eq_true]
    exact .inl (casesLoopBreak_of_mem
      (mem_append_right _ (mem_cons_self ..)) hfnd)
  | whenDefault _ _ _ ih =>
    refine ih.mono fun isNested hfnd => ?_
    rw [taskLoopBreak, containsLoopBreak_whenStatement, or_eq_true]
    exact .inr hfnd
  | loop _ ih => exact ih
  | cons _ _ _ ih =>
    refine ih.mono fun isNested hfnd => ?_
    rw [taskLoopBreak, anyLoopBreak, or_eq_true]
    exact .inr hfnd
  | stop _ _ ih =>
    refine ih.mono fun isNested hfnd => ?_
    rw [taskLoopBreak, anyLoopBreak, or_eq_true]
    exact .inl hfnd
  | again _ _ _ _ ih => exact ih
  | @leave kind loopLabel body o o' _ ho ih =>
    -- an unlabelled break goes no further than the loop it is in
    cases o with
    | broke target =>
      cases target with
      | none =>
        rw [← Option.some.inj ho]
        trivial
      | some target =>
        rw [Outcome.leaveLoop] at ho
        split_ifs at ho
        · rw [← Option.some.inj ho]
          trivial
        · rw [← Option.some.inj ho]
          intro htgt isNested
          rw [taskLoopBreak, and_eq_true, htgt]
          rw [htgt] at ih
          exact ⟨rfl, ih rfl true⟩
    | continued target =>
      cases target with
      | none => cases ho
      | some target =>
        rw [Outcome.leaveLoop] at ho
        split_ifs at ho
        rw [← Option.some.inj ho]
        trivial
    | normal => cases ho
    | _ =>
      rw [← Option.some.inj ho]
      trivial
/-! ### Soundness -/

theorem casesReturn_of_mem (h : casesReturn cases = true)
    {c : WhenCase Statement} (hc : c ∈ cases) : allPathsReturn c.body = true := by
  induction cases with
  | nil => cases hc
  | cons d l ih =>
    obtain ⟨values, body⟩ := d
    rw [casesReturn, and_eq_true] at h
    rcases mem_cons.mp hc with rfl | hc
    · exact h.1
    · exact ih h.2 hc

theorem allPathsReturn_whenStatement {subject : SubjectType} {cases : List (WhenCase Statement)}
    {defaultBody : Option Statement} {isStrict : Bool} :
    allPathsReturn (.whenStatement subject cases defaultBody isStrict) =
      (defaultBody.elim isStrict allPathsReturn && casesReturn cases) := by
  cases defaultBody with
  | none => rw [allPathsReturn, Option.elim_none]
  | some defaultBody => rw [allPathsReturn, Option.elim_some]

theorem Outcome.leaveLoop_normal {o : Outcome}
    (h : o.leaveLoop label = some .normal) :
    o = .broke none ∨ ∃ target, label = some target ∧ o = .broke (some target) := by
  cases o with
  | broke target =>
    cases target with
    | none => exact .inl rfl
    | some target =>
      rw [leaveLoop] at h
      split_ifs at h with hlab
      · exact .inr ⟨target, hlab, rfl⟩
      · cases h
  | continued target =>
    cases target with
    | none => cases h
    | some target =>
      rw [leaveLoop] at h
      split_ifs at h
      cases h
  | normal => cases h
  | returned => cases h
  | panicked => cases h

/-- What the completion of a task says: all statements of a sequence complete, an endless loop has
a break, and a statement of which all paths return reaches a `when` that does not handle its
subject. -/
def CompletesThrough (enums : Enums) : Task → Prop
  | .statement s => allPathsReturn s = true → ∃ w, Reaches enums s w ∧ ¬ w.Handles enums
  | .sequence l => (∀ s ∈ l, Exec enums (.statement s) .normal) ∧
      (lastReturns l = true → ∃ w, Reaches enums (.block l) w ∧ ¬ w.Handles enums)
  | .iterations kind label body => kind = .loop → containsLoopBreak label body false = true

theorem not_returns_normal : ¬ Exec enums (.statement .returnStatement) .normal := by
  intro h
  cases h

variable {s : Statement} {l : List Statement}

theorem Reaches.cons
    (hs : Exec enums (.statement s) .normal) (h : Reaches enums (.block l) w) :
    Reaches enums (.block (s :: l)) w := by
  generalize ht : Statement.block l = t at h
  cases h with
  | @last l' s' w hl hs' =>
    obtain rfl := Statement.block.inj ht
    refine Reaches.last (l := s :: l') ?_ hs'
    intro t ht
    rcases mem_cons.mp ht with rfl | ht
    · exact hs
    · exact hl t ht
  | _ => cases ht

theorem Exec.completesThrough {t : Task} {o : Outcome} (h : Exec enums t o)
    (ho : o = .normal) : CompletesThrough enums t := by
  induction h with
  | returned | panicked | breakJump | continueJump => cases ho
  | plain => exact fun h => by cases h
  | @block statements o _ ih =>
    intro hreturns
    obtain ⟨hall, hlast⟩ := ih ho
    rw [allPathsReturn, or_eq_true, any_eq_true] at hreturns
    rcases hreturns with ⟨s, hs, hret⟩ | hreturns
    · have hnorm := hall s hs
      cases s <;> cases hret
      exact absurd hnorm not_returns_normal
    · exact hlast hreturns
  | @consequence consequence alternative o _ ih =>
    intro hreturns
    cases alternative with
    | none => cases hreturns
    | some alternative =>
      rw [allPathsReturn, and_eq_true] at hreturns
      obtain ⟨w, hw, hhands⟩ := ih ho hreturns.1
      exact ⟨w, hw.consequence, hhands⟩
  | alternative _ ih =>
    intro hreturns
    rw [allPathsReturn, and_eq_true] at hreturns
    obtain ⟨w, hw, hhands⟩ := ih ho hreturns.2
    exact ⟨w, hw.alternative, hhands⟩
  | noAlternative => exact fun h => by cases h
  | whenCase hv hbef hmat _ ih =>
    intro hreturns
    rw [allPathsReturn_whenStatement, and_eq_true] at hreturns
    obtain ⟨w, hw, hhands⟩ := ih ho (casesReturn_of_mem hreturns.2
      (mem_append_right _ (mem_cons_self ..)))
    exact ⟨w, .whenCase hv hbef hmat hw, hhands⟩
  | whenDefault hv hcases _ ih =>
    intro hreturns
    rw [allPathsReturn_whenStatement, and_eq_true] at hreturns
    obtain ⟨w, hw, hhands⟩ := ih ho hreturns.1
    exact ⟨w, .whenDefault hv hcases hw, hhands⟩
  | @whenNone subject cases isStrict v hv hcases =>
    intro hreturns
    rw [allPathsReturn_whenStatement, and_eq_true, Option.elim_none] at hreturns
    obtain ⟨rfl, -⟩ := hreturns
    refine ⟨_, .here, fun hhands => ?_⟩
    obtain ⟨c, hc, hden⟩ := hhands v hv
    obtain ⟨case, hcase, hc⟩ := mem_flatMap.mp hc
    exact hcases case hcase ⟨c, hc, hden⟩
  | @loop kind label body o _ ih =>
    intro hreturns
    rw [allPathsReturn, and_eq_true, and_eq_true, beq_iff_eq, Bool.not_eq_true'] at hreturns
    have hbreak := ih ho hreturns.1.1
    rw [hreturns.2] at hbreak
    cases hbreak
  | nil => exact ⟨fun s hs => (by cases hs), fun h => (by cases h)⟩
  | @cons s l o hs _ ihs ihl =>
    obtain ⟨hall, hlast⟩ := ihl ho
    refine ⟨fun t ht => ?_, fun hreturns => ?_⟩
    · rcases mem_cons.mp ht with rfl | ht
      · exact hs
      · exact hall t ht
    · cases l with
      | nil =>
        obtain ⟨w, hw, hhands⟩ := ihs rfl hreturns
        exact ⟨w, .last (l := []) (fun t ht => by cases ht) hw, hhands⟩
      | cons t l =>
        obtain ⟨w, hw, hhands⟩ := hlast hreturns
        exact ⟨w, hw.cons hs, hhands⟩
  | stop _ hne => exact absurd ho hne
  | done hkind => exact fun h => absurd h hkind
  | again _ _ _ _ ih => exact ih ho
  | @leave kind label body o o' hbody hleave _ =>
    intro _
    rw [ho] at hleave
    have hfnd := hbody.breakFound label
    rcases Outcome.leaveLoop_normal hleave with rfl | ⟨target, rfl, rfl⟩
    · exact hfnd
    · exact hfnd rfl false

/-! ### Falling through -/

theorem exec_sequence_append {s : Statement}
    (hl : ∀ t ∈ l, Exec enums (.statement t) .normal) (hs : Exec enums (.statement s) .normal) :
    Exec enums (.sequence (l ++ [s])) .normal := by
  induction l with
  | nil => exact .cons hs .nil
  | cons t l ih =>
    exact .cons (hl t (mem_cons_self ..)) (ih fun u hu => hl u (mem_cons_of_mem _ hu))

theorem Reaches.completes
    (h : Reaches enums s w) (hw : ¬ w.Handles enums) : Exec enums (.statement s) .normal := by
  induction h with
  | @here subject cases =>
    unfold StrictWhen.Handles at hw
    push Not at hw
    obtain ⟨v, hv, hmat⟩ := hw
    refine .whenNone hv fun case hcase hsurely => hmat ?_
    obtain ⟨c, hc, hden⟩ := hsurely
    exact ⟨c, mem_flatMap.mpr ⟨case, hcase, hc⟩, hden⟩
  | last hl _ ih => exact .block (exec_sequence_append hl (ih hw))
  | consequence _ ih => exact .consequence (ih hw)
  | alternative _ ih => exact .alternative (ih hw)
  | whenCase hv hbef hmat _ ih => exact .whenCase hv hbef hmat (ih hw)
  | whenDefault hv hcases _ ih => exact .whenDefault hv hcases (ih hw)

theorem mem_strictWhensOf {s : Statement} (hs : s ∈ l) {w : StrictWhen}
    (h : w ∈ strictWhens s) : w ∈ strictWhensOf l := by
  induction l with
  | nil => cases hs
  | cons t l ih =>
    rw [strictWhensOf, mem_append]
    rcases mem_cons.mp hs with rfl | hs
    · exact .inl h
    · exact .inr (ih hs)

theorem mem_strictWhensOfCases {c : WhenCase Statement}
    (hc : c ∈ cases) {w : StrictWhen} (h : w ∈ strictWhens c.body) :
    w ∈ strictWhensOfCases cases := by
  induction cases with
  | nil => cases hc
  | cons d l ih =>
    obtain ⟨values, body⟩ := d
    rw [strictWhensOfCases, mem_append]
    rcases mem_cons.mp hc with rfl | hc
    · exact .inl h
    · exact .inr (ih hc)

theorem Reaches.mem_strictWhens
    (h : Reaches enums s w) : w ∈ strictWhens s := by
  induction h with
  | here =>
    rw [strictWhens, if_pos rfl]
    exact mem_append_left _ (mem_singleton.mpr rfl)
  | last _ _ ih => exact mem_strictWhensOf (mem_append_right _ (mem_singleton.mpr rfl)) ih
  | @consequence consequence alternative w _ ih =>
    cases alternative with
    | none => exact ih
    | some alternative => exact mem_append_left _ ih
  | alternative _ ih => exact mem_append_right _ ih
  | @whenCase subject before after case defaultBody isStrict v w _ _ _ _ ih =>
    have hmem := @mem_strictWhensOfCases (before ++ case :: after) _
      (mem_append_right _ (mem_cons_self ..)) _ ih
    cases defaultBody with
    | none => exact mem_append_right _ hmem
    | some defaultBody => exact mem_append_left _ hmem
  | whenDefault _ _ _ ih => exact mem_append_right _ ih
/-! ### The missing-return analysis -/

/-- A function body that passes the analysis is never left at its closing brace, if every `#strict`
`when` that ends a path an execution can reach, and that is not regular, has a branch for each value
of its subject; and only if. -/
theorem allPathsReturn_sound_iff (enums : Enums) {body : Statement}
    (hreturns : allPathsReturn body = true)
    (hstrict : ∀ w ∈ strictWhens body, strictErrors enums w = []) :
    ¬ Exec enums (.statement body) .normal ↔
      ∀ w, Reaches enums body w → ¬ w.Regular enums → w.Handles enums := by
  constructor
  · intro hsound w hw _
    by_contra hhands
    exact hsound (hw.completes hhands)
  · intro hhands h
    obtain ⟨w, hw, hunhandled⟩ := h.completesThrough rfl hreturns
    by_cases hregular : w.Regular enums
    · exact hunhandled (hregular.handles (hstrict w hw.mem_strictWhens))
    · exact hunhandled (hhands w hw hregular)

/-- The flags enum `Perm` of two variants. -/
def permEnums : Enums := fun name =>
  if name = bytes "Perm" then
    some ⟨bytes "Perm", true, [(bytes "A", .integer 1), (bytes "B", .integer 2)]⟩
  else none

/-- An `is` branch with one variant of `Perm`, that returns. -/
def permCase (variant : Text) : WhenCase Statement :=
  ⟨[.member (.label (bytes "Perm") false) variant], .block [.returnStatement]⟩

/-- `if` with a `return` in it, otherwise a `#strict` `when` on a `bool`, then both return. -/
theorem allPathsReturn_sound_bool :
    ¬ Exec permEnums (.statement (.block [.plain, .ifStatement (.block [.returnStatement])
      (some (.block [.whenStatement .bool [⟨[.boolValue true], .block [.returnStatement]⟩,
        ⟨[.boolValue false], .block [.returnStatement]⟩] none true]))])) .normal := by
  refine (allPathsReturn_sound_iff permEnums (by decide) fun w hw => ?_).mpr fun w hw hregular => ?_
  · rw [mem_singleton.mp hw]
    rfl
  · refine absurd ?_ hregular
    rw [mem_singleton.mp hw.mem_strictWhens]
    rfl

/-- Both bits of `Perm` at once are a value without a branch. -/
theorem allPathsReturn_flags_unsound : ∃ enums body, allPathsReturn body = true ∧
      (∀ w ∈ strictWhens body, strictErrors enums w = []) ∧
      Exec enums (.statement body) .normal := by
  refine ⟨permEnums, .block [.whenStatement
    (.enum ⟨bytes "Perm", true, [(bytes "A", .integer 1), (bytes "B", .integer 2)]⟩)
    [permCase (bytes "A"), permCase (bytes "B")] none true], by decide, ?_, ?_⟩
  · intro w hw
    rw [mem_singleton.mp hw]
    rfl
  · have hval : SubjectType.HasValue
        (.enum ⟨bytes "Perm", true, [(bytes "A", .integer 1), (bytes "B", .integer 2)]⟩)
        (.integer 3) := ⟨by decide, by decide +kernel⟩
    refine .block (.cons (.whenNone hval fun c hc => ?_) .nil)
    rintro ⟨value, hval, hden⟩
    rcases mem_pair.mp hc with rfl | rfl
    · rw [mem_singleton.mp hval] at hden
      revert hden
      decide
    · rw [mem_singleton.mp hval] at hden
      revert hden
      decide

end Grayscale
