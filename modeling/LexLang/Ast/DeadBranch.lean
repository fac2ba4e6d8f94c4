/-
# LexLang.Ast.DeadBranch — folding a match on a literal to one of its arms

The pass (`lex-ast/src/dead_branch.rs`) that runs on every function body before it is hashed, checked
and compiled: a match whose scrutinee is a literal becomes the body of the first arm with an equal
literal or a wildcard. Its scan passes over the other patterns, also where they match: a variable
does. `fold_faithful_iff` says when folding keeps the meaning and the first match: exactly when no
arm that matches is passed over.
-/
import LexLang.Ast.Meaning

namespace LexLang.Ast

open List Option

/-! ## The pass -/

/-- What the scan takes for a match: an equal literal or a wildcard. -/
def patternMatchesLiteral (pattern : Pattern) (l : CLit) : Bool :=
  match pattern with
  | .pLiteral value => value == l
  | .pWild => true
  | _ => false

/-- The rewrite at one match: the first arm the scan takes, if the scrutinee is a literal. -/
def tryFoldLiteralMatch (scrutinee : CExpr) (arms : List (Pattern × CExpr)) : CExpr :=
  match scrutinee with
  | .literal l =>
    match arms.find? fun arm => patternMatchesLiteral arm.1 l with
    | some arm => arm.2
    | none => .matchE scrutinee arms
  | _ => .matchE scrutinee arms

mutual

/-- **Fold dead branches**, children first. -/
def fold : CExpr → CExpr
  | .matchE scrutinee arms => tryFoldLiteralMatch (fold scrutinee) (foldArms arms)
  | .call callee args => .call (fold callee) (foldAll args)
  | .letE name ty value body => .letE name ty (fold value) (fold body)
  | .block statements result => .block (foldAll statements) (fold result)
  | .constructor name args => .constructor name (foldAll args)
  | .recordLit fields => .recordLit (foldFields fields)
  | .tupleLit items => .tupleLit (foldAll items)
  | .listLit items => .listLit (foldAll items)
  | .fieldAccess value field => .fieldAccess (fold value) field
  | .lambda params returnType effects effectRowVar body =>
    .lambda params returnType effects effectRowVar (fold body)
  | .binOp op lhs rhs => .binOp op (fold lhs) (fold rhs)
  | .unaryOp op expr => .unaryOp op (fold expr)
  | .returnE value => .returnE (fold value)
  | .literal value => .literal value
  | .var name => .var name

/-- Fold each. -/
def foldAll : List CExpr → List CExpr
  | [] => []
  | e :: es => fold e :: foldAll es

/-- Fold the bodies. -/
def foldArms : List (Pattern × CExpr) → List (Pattern × CExpr)
  | [] => []
  | (pattern, body) :: arms => (pattern, fold body) :: foldArms arms

/-- Fold the values. -/
def foldFields : List (String × CExpr) → List (String × CExpr)
  | [] => []
  | (name, value) :: fields => (name, fold value) :: foldFields fields

end

/-- Fold a declaration: function bodies only. -/
def eliminateInStage : Stage → Stage
  | .fnDecl decl => .fnDecl { decl with body := fold decl.body }
  | .typeDecl decl => .typeDecl decl
  | .importDecl decl => .importDecl decl

/-- Fold a program. -/
def eliminateDeadBranchesInStages (stages : List Stage) : List Stage := stages.map eliminateInStage

/-! ## What the pass owes -/

mutual

/-- Something holds at every match of an expression. -/
def EveryMatch (P : CExpr → List (Pattern × CExpr) → Prop) : CExpr → Prop
  | .matchE scrutinee arms =>
    P scrutinee arms ∧ EveryMatch P scrutinee ∧ EveryMatchArms P arms
  | .call callee args => EveryMatch P callee ∧ EveryMatchAll P args
  | .letE _ _ value body => EveryMatch P value ∧ EveryMatch P body
  | .block statements result => EveryMatchAll P statements ∧ EveryMatch P result
  | .constructor _ args => EveryMatchAll P args
  | .recordLit fields => EveryMatchFields P fields
  | .tupleLit items => EveryMatchAll P items
  | .listLit items => EveryMatchAll P items
  | .fieldAccess value _ => EveryMatch P value
  | .lambda _ _ _ _ body => EveryMatch P body
  | .binOp _ lhs rhs => EveryMatch P lhs ∧ EveryMatch P rhs
  | .unaryOp _ expr => EveryMatch P expr
  | .returnE value => EveryMatch P value
  | .literal _ => True
  | .var _ => True

def EveryMatchAll (P : CExpr → List (Pattern × CExpr) → Prop) : List CExpr → Prop
  | [] => True
  | e :: es => EveryMatch P e ∧ EveryMatchAll P es

def EveryMatchArms (P : CExpr → List (Pattern × CExpr) → Prop) : List (Pattern × CExpr) → Prop
  | [] => True
  | (_, body) :: arms => EveryMatch P body ∧ EveryMatchArms P arms

def EveryMatchFields (P : CExpr → List (Pattern × CExpr) → Prop) : List (String × CExpr) → Prop
  | [] => True
  | (_, value) :: fields => EveryMatch P value ∧ EveryMatchFields P fields

end

/-- Two expressions evaluate alike: in every language, in every environment. -/
def MeanTheSame (e e' : CExpr) : Prop :=
  ∀ (M : Type → Type) [Monad M] [LawfulMonad M] (V : Type) (language : Language M V) (env : Env V),
    language.eval env e = language.eval env e'

/-- The arm kept is the first one that matches. -/
def KeepsFirst (scrutinee : CExpr) (arms : List (Pattern × CExpr)) : Prop :=
  ∀ l i, fold scrutinee = .literal l →
    arms.findIdx? (fun arm => patternMatchesLiteral arm.1 l) = some i →
    arms.findIdx? (fun arm => arm.1.matchesLiteral l) = some i

/-- **Folding is faithful**: the meaning is kept, and wherever an arm is kept it is the first match. -/
def FoldFaithful (e : CExpr) : Prop := MeanTheSame (fold e) e ∧ EveryMatch KeepsFirst e

/-! ## When it pays -/

mutual

/-- The literal an expression comes to by its shape: a literal, or the arm a match on one takes. -/
def literalOf : CExpr → Option CLit
  | .literal l => some l
  | .matchE scrutinee arms => (literalOf scrutinee).bind fun l => literalOfArms l arms
  | _ => none

def literalOfArms (l : CLit) : List (Pattern × CExpr) → Option CLit
  | [] => none
  | (pattern, body) :: arms =>
    if patternMatchesLiteral pattern l then literalOf body else literalOfArms l arms

end

/-- A pattern that the scan passes over though it matches: a variable, the unit's empty tuple, or the
zero of the other sign. -/
def PassedOver (l : CLit) (pattern : Pattern) : Prop :=
  (∃ name, pattern = .pVar name) ∨ (l = .unit ∧ pattern = .pTuple []) ∨
    ∃ value, pattern = .pLiteral value ∧ value ≠ l ∧ value.same l = true

/-- No arm that matches stands before the arm the scan takes. -/
def UnshadowedAt (l : CLit) (arms : List (Pattern × CExpr)) : Prop :=
  ∀ before arm after, arms = before ++ arm :: after → patternMatchesLiteral arm.1 l = true →
    (∀ earlier ∈ before, patternMatchesLiteral earlier.1 l = false) →
    ∀ earlier ∈ before, ¬ PassedOver l earlier.1

/-- **Where the scrutinee comes to a literal, no arm that matches is passed over.** -/
def Unshadowed (scrutinee : CExpr) (arms : List (Pattern × CExpr)) : Prop :=
  ∀ l, literalOf scrutinee = some l → UnshadowedAt l arms

/-- The scan takes matches only, and misses those it passes over. -/
theorem matchesLiteral_iff (pattern : Pattern) (l : CLit) : pattern.matchesLiteral l = true ↔
      patternMatchesLiteral pattern l = true ∨ PassedOver l pattern := by
  unfold Pattern.matchesLiteral patternMatchesLiteral PassedOver
  cases pattern with
  | pLiteral value =>
    by_cases h : value = l
    · simp [h]
    · simp [h]
  | pVar name => simp
  | pWild => simp
  | pConstructor name args => simp
  | pRecord fields => simp
  | pTuple items => simp [and_comm]

/-! ### The arm the scan takes -/

variable {l : CLit} {arm : Pattern × CExpr} {arms : List (Pattern × CExpr)}

/-- An arm the scan takes shadows what follows. -/
theorem unshadowedAt_cons_of_taken (htaken : patternMatchesLiteral arm.1 l = true) :
    UnshadowedAt l (arm :: arms) := by
  intro before taken after heq _ hno earlier hmem
  cases before with
  | nil => cases hmem
  | cons first before =>
    obtain ⟨rfl, _⟩ := List.cons.inj heq
    have := hno arm mem_cons_self
    rw [htaken] at this
    cases this

theorem unshadowedAt_cons_of_not_taken (hno : patternMatchesLiteral arm.1 l = false) : UnshadowedAt l (arm :: arms) ↔
      UnshadowedAt l arms ∧ ((∃ taken ∈ arms, patternMatchesLiteral taken.1 l = true) → ¬ PassedOver l arm.1) := by
  constructor
  · intro h
    constructor
    · intro before taken after heq htaken hbefore earlier hmem
      refine h (arm :: before) taken after (by rw [heq]; rfl) htaken (fun e he => ?_) earlier
        (mem_cons_of_mem _ hmem)
      rcases mem_cons.mp he with rfl | he
      · exact hno
      · exact hbefore e he
    · -- the first arm taken comes after `arm`
      rintro ⟨taken, hmem, htaken⟩
      have hsome : (arms.find? fun arm => patternMatchesLiteral arm.1 l).isSome :=
        find?_isSome.mpr ⟨taken, hmem, htaken⟩
      obtain ⟨found, hfound⟩ := isSome_iff_exists.mp hsome
      obtain ⟨hpred, before, after, heq, hbefore⟩ := find?_eq_some_iff_append.mp hfound
      refine h (arm :: before) found after (by rw [heq]; rfl) hpred (fun e he => ?_) arm
        mem_cons_self
      rcases mem_cons.mp he with rfl | he
      · exact hno
      · simpa using hbefore e he
  · rintro ⟨hrest, hfirst⟩ before taken after heq htaken hbefore earlier hmem
    cases before with
    | nil => cases hmem
    | cons first before =>
      obtain ⟨rfl, rfl⟩ := List.cons.inj heq
      rcases mem_cons.mp hmem with rfl | hmem
      · exact hfirst ⟨taken, by simp, htaken⟩
      · exact hrest before taken after rfl htaken
          (fun e he => hbefore e (mem_cons_of_mem _ he)) earlier hmem

/-- **The arm taken is the first match exactly when none is passed over.** -/
theorem unshadowedAt_iff (l : CLit) : ∀ (arms : List (Pattern × CExpr)),
    UnshadowedAt l arms ↔
      ∀ i, arms.findIdx? (fun arm => patternMatchesLiteral arm.1 l) = some i →
        arms.findIdx? (fun arm => arm.1.matchesLiteral l) = some i
  | [] => by simp [UnshadowedAt]
  | arm :: arms => by
    have ih := unshadowedAt_iff l arms
    simp only [findIdx?_cons]
    by_cases htaken : patternMatchesLiteral arm.1 l = true
    · have hmatches := (matchesLiteral_iff arm.1 l).mpr (.inl htaken)
      simp [htaken, hmatches, unshadowedAt_cons_of_taken htaken]
    · have hno : patternMatchesLiteral arm.1 l = false := Bool.eq_false_iff.mpr htaken
      rw [unshadowedAt_cons_of_not_taken hno, ih]
      by_cases hpassed : PassedOver l arm.1
      · have hmatches := (matchesLiteral_iff arm.1 l).mpr (.inr hpassed)
        simp only [hno, hmatches, hpassed, Bool.false_eq_true, if_false, if_true, not_true_eq_false, imp_false]
        constructor
        · rintro ⟨_, hnone⟩ i hi
          -- some arm is taken after all
          obtain ⟨j, hj, _⟩ := map_eq_some_iff.mp hi
          have hsome : (arms.findIdx? fun arm => patternMatchesLiteral arm.1 l).isSome := by
            rw [hj]
            rfl
          rw [findIdx?_isSome, List.any_eq_true] at hsome
          exact absurd hsome hnone
        · intro h
          have hnone : arms.findIdx? (fun arm => patternMatchesLiteral arm.1 l) = none := by
            by_contra hsome
            obtain ⟨j, hj⟩ := ne_none_iff_exists'.mp hsome
            have := h (j + 1) (by rw [hj]; rfl)
            simp at this
          refine ⟨fun i hi => absurd (hnone.symm.trans hi) (by simp), ?_⟩
          rintro ⟨taken, hmem, htaken⟩
          have := findIdx?_eq_none_iff.mp hnone taken hmem
          rw [htaken] at this
          cases this
      · have hmatches : arm.1.matchesLiteral l = false := by
          refine Bool.eq_false_iff.mpr fun h => ?_
          rcases (matchesLiteral_iff arm.1 l).mp h with h | h
          · exact htaken h
          · exact hpassed h
        simp only [hno, hmatches, hpassed, Bool.false_eq_true, if_false, not_false_eq_true,
          implies_true, and_true, map_eq_some_iff]
        constructor
        · rintro h _ ⟨j, hj, rfl⟩
          exact ⟨j, h j hj, rfl⟩
        · intro h i hi
          obtain ⟨j, hj, heq⟩ := h (i + 1) ⟨i, hi, rfl⟩
          obtain rfl : j = i := by omega
          exact hj

/-! ### What a fold comes to -/

theorem find?_foldArms (l : CLit) (arms : List (Pattern × CExpr)) :
    (foldArms arms).find? (fun arm => patternMatchesLiteral arm.1 l) =
      (arms.find? fun arm => patternMatchesLiteral arm.1 l).map fun arm => (arm.1, fold arm.2) := by
  induction arms with
  | nil => rfl
  | cons arm arms ih =>
    rw [foldArms, find?_cons, find?_cons]
    cases patternMatchesLiteral arm.1 l with
    | true => rfl
    | false => exact ih

theorem literalOfArms_eq (l : CLit) (arms : List (Pattern × CExpr)) :
    literalOfArms l arms =
      (arms.find? fun arm => patternMatchesLiteral arm.1 l).bind fun arm => literalOf arm.2 := by
  induction arms with
  | nil => simp [literalOfArms]
  | cons arm arms ih =>
    rw [literalOfArms, find?_cons]
    cases patternMatchesLiteral arm.1 l with
    | true => rfl
    | false => exact ih

/-- The rewrite at a match whose scrutinee is a literal. -/
theorem tryFold_literal (l : CLit) (arms : List (Pattern × CExpr)) :
    tryFoldLiteralMatch (.literal l) (foldArms arms) =
      match arms.find? fun arm => patternMatchesLiteral arm.1 l with
      | some arm => fold arm.2
      | none => .matchE (.literal l) (foldArms arms) := by
  unfold tryFoldLiteralMatch
  simp only [find?_foldArms]
  cases arms.find? fun arm => patternMatchesLiteral arm.1 l <;> rfl

/-- The rewrite at any other match. -/
theorem tryFold_of_ne {scrutinee : CExpr} (h : ∀ l, scrutinee ≠ .literal l) (arms : List (Pattern × CExpr)) :
    tryFoldLiteralMatch scrutinee arms = .matchE scrutinee arms := by
  unfold tryFoldLiteralMatch
  split
  · exact absurd rfl (h _)
  · rfl

mutual

/-- **An expression folds to a literal exactly when it comes to one by its shape.** -/
theorem fold_eq_literal_iff : ∀ (e : CExpr) (l : CLit), fold e = .literal l ↔ literalOf e = some l
  | .matchE scrutinee arms, l => by
    have hscrutinee := fold_eq_literal_iff scrutinee
    have harms := foldArms_literal arms
    rw [fold, literalOf]
    cases hs : literalOf scrutinee with
    | some l' =>
      rw [(hscrutinee l').mpr hs, tryFold_literal, bind_some, literalOfArms_eq]
      cases hfind : arms.find? fun arm => patternMatchesLiteral arm.1 l' with
      | some arm => exact harms arm (mem_of_find?_eq_some hfind) l
      | none => simp
    | none =>
      rw [tryFold_of_ne fun l' hl' => by
        rw [(hscrutinee l').mp hl'] at hs
        cases hs]
      simp
  | .literal _, _ | .var _, _ | .call .., _ | .letE .., _ | .block .., _ | .constructor .., _ | .recordLit _, _
  | .tupleLit _, _ | .listLit _, _ | .fieldAccess .., _ | .lambda .., _ | .binOp .., _ | .unaryOp .., _
  | .returnE _, _ => by simp [fold, literalOf]

theorem foldArms_literal : ∀ (arms : List (Pattern × CExpr)), ∀ arm ∈ arms, ∀ l,
    fold arm.2 = .literal l ↔ literalOf arm.2 = some l
  | [], arm, hmem, _ => by cases hmem
  | (pattern, body) :: arms, arm, hmem, l => by
    have hbody := fold_eq_literal_iff body l
    have harms := foldArms_literal arms
    rcases mem_cons.mp hmem with rfl | hmem
    · exact hbody
    · exact harms arm hmem l

end

/-! ### The meaning is kept -/

section Meaning

variable {M : Type → Type} {V : Type} (language : Language M V)

/-- A pattern the scan takes binds nothing. -/
theorem matchPattern_of_taken {pattern : Pattern} (h : patternMatchesLiteral pattern l = true) :
    language.matchPattern pattern (language.lit l) = some [] := by
  unfold patternMatchesLiteral at h
  split at h
  · obtain rfl := eq_of_beq h
    simp [Language.matchPattern, language.view_lit]
  · rfl
  · cases h

variable [Monad M]

/-- **A match on a literal takes the arm the scan takes**, where none that matches is passed over. -/
theorem evalArms_literal (env : Env V) : ∀ {arms : List (Pattern × CExpr)}
    {arm : Pattern × CExpr}, UnshadowedAt l arms →
    arms.find? (fun arm => patternMatchesLiteral arm.1 l) = some arm →
    language.evalArms env (language.lit l) arms = language.eval env arm.2
  | (pattern, body) :: arms, arm, hclear, hfind => by
    rw [Language.evalArms]
    rw [find?_cons] at hfind
    cases htaken : patternMatchesLiteral pattern l with
    | true =>
      simp only [htaken] at hfind
      obtain rfl := some.inj hfind
      rw [matchPattern_of_taken language htaken]
      rfl
    | false =>
      simp only [htaken] at hfind
      obtain ⟨hrest, hfirst⟩ := (unshadowedAt_cons_of_not_taken htaken).mp hclear
      have hno : ¬ PassedOver l pattern :=
        hfirst ⟨arm, mem_of_find?_eq_some hfind, by simpa using find?_some hfind⟩
      have hnone : language.matchPattern pattern (language.lit l) = none := by
        rw [← not_isSome_iff_eq_none, language.isSome_matchPattern_lit, matchesLiteral_iff]
        rintro (h | h)
        · rw [htaken] at h
          cases h
        · exact hno h
      rw [hnone]
      exact evalArms_literal env hrest hfind

mutual

/-- **Folding keeps the meaning** where no arm that matches is passed over. -/
theorem eval_fold [LawfulMonad M] : ∀ (e : CExpr), EveryMatch Unshadowed e → ∀ env : Env V,
    language.eval env (fold e) = language.eval env e
  | .matchE scrutinee arms, h, env => by
    obtain ⟨hclear, hscrutinee, harms⟩ := h
    have ihs := eval_fold scrutinee hscrutinee env
    have iha := eval_foldArms arms harms
    rw [fold, Language.eval, ← ihs]
    by_cases hlit : ∃ l, fold scrutinee = .literal l
    · obtain ⟨l, hl⟩ := hlit
      rw [hl, tryFold_literal, Language.eval, pure_bind, ← (iha env _).1]
      have hliteral := (fold_eq_literal_iff scrutinee l).mp hl
      cases hfind : arms.find? fun arm => patternMatchesLiteral arm.1 l with
      | none => rw [Language.eval, Language.eval, pure_bind]
      | some arm =>
        rw [(iha env _).1, evalArms_literal language env (hclear l hliteral) hfind]
        exact (iha env (language.lit l)).2 arm (mem_of_find?_eq_some hfind)
    · rw [tryFold_of_ne fun l hl => hlit ⟨l, hl⟩, Language.eval]
      exact bind_congr fun v => (iha env v).1
  | .call callee args, h, env => by
    rw [fold, Language.eval, Language.eval, eval_fold callee h.1 env, eval_foldAll args h.2 env]
  | .letE name ty value body, h, env => by
    rw [fold, Language.eval, Language.eval, eval_fold value h.1 env]
    exact bind_congr fun v => eval_fold body h.2 _
  | .block statements result, h, env => by
    rw [fold, Language.eval, Language.eval, eval_foldAll statements h.1 env, eval_fold result h.2 env]
  | .constructor name args, h, env => by
    rw [fold, Language.eval, Language.eval, eval_foldAll args h env]
  | .recordLit fields, h, env => by
    rw [fold, Language.eval, Language.eval, eval_foldFields fields h env]
  | .tupleLit items, h, env | .listLit items, h, env => by
    rw [fold, Language.eval, Language.eval, eval_foldAll items h env]
  | .fieldAccess value _, h, env | .returnE value, h, env => by
    rw [fold, Language.eval, Language.eval, eval_fold value h env]
  | .lambda params returnType effects effectRowVar body, h, env => by
    rw [fold, Language.eval, Language.eval]
    simp only [eval_fold body h]
  | .binOp op lhs rhs, h, env => by
    rw [fold, Language.eval, Language.eval, eval_fold lhs h.1 env, eval_fold rhs h.2 env]
  | .unaryOp op expr, h, env => by
    rw [fold, Language.eval, Language.eval, eval_fold expr h env]
  | .literal value, _, env => by rw [fold]
  | .var name, _, env => by rw [fold]

theorem eval_foldAll [LawfulMonad M] : ∀ (es : List CExpr), EveryMatchAll Unshadowed es → ∀ env : Env V,
    language.evalAll env (foldAll es) = language.evalAll env es
  | [], _, env => by rw [foldAll]
  | e :: es, h, env => by
    rw [foldAll, Language.evalAll, Language.evalAll, eval_fold e h.1 env, eval_foldAll es h.2 env]

theorem eval_foldFields [LawfulMonad M] : ∀ (fields : List (String × CExpr)),
    EveryMatchFields Unshadowed fields → ∀ env : Env V,
    language.evalFields env (foldFields fields) = language.evalFields env fields
  | [], _, env => by rw [foldFields]
  | (name, value) :: fields, h, env => by
    rw [foldFields, Language.evalFields, Language.evalFields, eval_fold value h.1 env, eval_foldFields fields h.2 env]

theorem eval_foldArms [LawfulMonad M] : ∀ (arms : List (Pattern × CExpr)), EveryMatchArms Unshadowed arms →
    ∀ (env : Env V) (v : V),
      language.evalArms env v (foldArms arms) = language.evalArms env v arms ∧
        ∀ arm ∈ arms, language.eval env (fold arm.2) = language.eval env arm.2
  | [], _, env, v => ⟨by rw [foldArms], by simp⟩
  | (pattern, body) :: arms, h, env, v => by
    have hbody := eval_fold body h.1
    have ih := eval_foldArms arms h.2 env v
    constructor
    · rw [foldArms, Language.evalArms, Language.evalArms, ih.1]
      simp only [hbody]
    · intro arm hmem
      rcases mem_cons.mp hmem with rfl | hmem
      · exact hbody env
      · exact ih.2 arm hmem

end

end Meaning

/-- At a match, the arm kept is the first one exactly when none that matches is passed over. -/
theorem keepsFirst_iff (scrutinee : CExpr) (arms : List (Pattern × CExpr)) :
    KeepsFirst scrutinee arms ↔ Unshadowed scrutinee arms := by
  unfold KeepsFirst Unshadowed
  refine forall_congr' fun l => ?_
  rw [unshadowedAt_iff, ← fold_eq_literal_iff]
  exact ⟨fun h hl i hi => h i hl hi, fun h i hl hi => h hl i hi⟩

/-- **Folding is faithful exactly when no arm that matches is passed over**: then the folded
expression means the same in every language and environment, and every arm kept is the first match. -/
theorem fold_faithful_iff (e : CExpr) : FoldFaithful e ↔ EveryMatch Unshadowed e := by
  have hsame : KeepsFirst = Unshadowed :=
    funext fun scrutinee => funext fun arms => propext (keepsFirst_iff scrutinee arms)
  unfold FoldFaithful
  rw [hsame]
  refine and_iff_right_of_imp fun h => ?_
  intro M _ _ V language env
  exact eval_fold language e h env

/-! ### A variable passed over -/

/-- Values without functions. -/
inductive PlainValue
  | lit (value : CLit)
  | con (name : String) (args : List PlainValue)
  | record (fields : List (String × PlainValue))
  | tuple (items : List PlainValue)
  | list (items : List PlainValue)
  | closure

/-- What a plain value shows to a pattern. -/
def PlainValue.view : PlainValue → View PlainValue
  | .lit value => .lit value
  | .con name args => .con name args
  | .record fields => .record fields
  | .tuple items => .tuple items
  | .list _ | .closure => .other

/-- A language to evaluate examples in: its calls and operators are errors. -/
def plainLanguage : Language Option PlainValue where
  lit := .lit
  construct := .con
  record := .record
  tuple := .tuple
  list := .list
  closure := fun _ _ => .closure
  view := PlainValue.view
  view_lit := fun _ => rfl
  field := fun value name =>
    match value with
    | .record fields => fields.lookup name
    | _ => none
  apply := fun _ _ => none
  binOp := fun _ _ _ => none
  unaryOp := fun _ _ => none
  leave := fun _ => none
  scope := id
  unbound := fun _ => none
  noMatch := none

/-- `match 1 { x => x, 1 => 99 }` -/
def variableFirst : CExpr :=
  .matchE (.literal (.int 1))
    [(.pVar "x", .var "x"), (.pLiteral (.int 1), .literal (.int 99))]

/-- **A variable before the literal**: the expression is 1, and folds to 99. -/
theorem fold_variableFirst_unfaithful : ¬ ∀ e : CExpr, MeanTheSame (fold e) e := by
  intro h
  have hsame := h variableFirst Option PlainValue plainLanguage fun _ => none
  have hfolded : plainLanguage.eval (fun _ => none) (fold variableFirst) =
      some (.lit (.int 99)) := rfl
  have hmeant : plainLanguage.eval (fun _ => none) variableFirst = some (.lit (.int 1)) := rfl
  rw [hfolded, hmeant] at hsame
  simp at hsame

end LexLang.Ast
