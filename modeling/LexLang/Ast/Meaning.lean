/-
# LexLang.Ast.Meaning — what a canonical expression evaluates to

Evaluation with first-match semantics, over everything the syntax leaves open. A `Language` says what
values are, what literals, constructors, closures, calls and operators do, and in which monad:
errors, an early return, effects and running on for ever are the monad's. What is fixed here is what
the syntax fixes: the order of evaluation, the scope of names, and that a match takes the first arm
whose pattern matches, a literal pattern matching an equal literal.
-/
import LexLang.Ast.Canonical

namespace LexLang.Ast

/-! ## Literals -/

/-- The float of a canonical text is a zero, of either sign. -/
def isZero (text : String) : Bool := text == "0.0" || text == "-0.0"

/-- **Equal literals**: canonical texts are shortest round trips, so two floats are equal when their
texts are, or when both are zeros. -/
def CLit.same : CLit → CLit → Bool
  | .float a, .float b => a == b || (isZero a && isZero b)
  | a, b => a == b

@[simp] theorem CLit.same_self (l : CLit) : l.same l = true := by
  cases l <;> simp [CLit.same]

/-! ## Languages -/

/-- What a pattern can tell about a value. -/
inductive View (V : Type)
  | lit (value : CLit)
  | con (name : String) (args : List V)
  | record (fields : List (String × V))
  | tuple (items : List V)
  | other

/-- **What the syntax leaves open.** -/
structure Language (M : Type → Type) (V : Type) where
  lit : CLit → V
  construct : String → List V → V
  record : List (String × V) → V
  tuple : List V → V
  list : List V → V
  /-- A function value, from its parameters and what it does with its arguments. -/
  closure : List String → (List V → M V) → V
  view : V → View V
  /-- A literal looks like itself. -/
  view_lit : ∀ l, view (lit l) = .lit l
  field : V → String → M V
  apply : V → List V → M V
  /-- An operator decides itself which of its operands it runs. -/
  binOp : String → M V → M V → M V
  unaryOp : String → V → M V
  /-- Leave the enclosing function with a value … -/
  leave : V → M V
  /-- … which is what this catches. -/
  scope : M V → M V
  unbound : String → M V
  noMatch : M V

/-- What names stand for. -/
abbrev Env (V : Type) := String → Option V

/-- One more name. -/
def Env.bind {V : Type} (env : Env V) (name : String) (value : V) : Env V :=
  fun n => if n = name then some value else env n

/-- More names, the last of a name wins. -/
def Env.bindAll {V : Type} (env : Env V) (binds : List (String × V)) : Env V :=
  binds.foldl (fun env entry => env.bind entry.1 entry.2) env

namespace Language

variable {M : Type → Type} {V : Type} (language : Language M V)

/-! ## Patterns -/

mutual

/-- **A pattern against a value**: what it binds, if it matches. The empty tuple is the unit. -/
def matchPattern : Pattern → V → Option (List (String × V))
  | .pLiteral value, v =>
    match language.view v with
    | .lit l => if value.same l then some [] else none
    | _ => none
  | .pVar name, v => some [(name, v)]
  | .pWild, _ => some []
  | .pConstructor name args, v =>
    match language.view v with
    | .con name' values => if name = name' then matchAll args values else none
    | _ => none
  | .pRecord fields, v =>
    match language.view v with
    | .record values => matchFields fields values
    | _ => none
  | .pTuple items, v =>
    match language.view v with
    | .tuple values => matchAll items values
    | .lit .unit => if items.isEmpty then some [] else none
    | _ => none

/-- Patterns against as many values. -/
def matchAll : List Pattern → List V → Option (List (String × V))
  | [], _ => some []
  | _ :: _, [] => none
  | p :: ps, v :: vs =>
    match matchPattern p v, matchAll ps vs with
    | some binds, some more => some (binds ++ more)
    | _, _ => none

/-- Field patterns against the fields of a record. -/
def matchFields : List (String × Pattern) → List (String × V) → Option (List (String × V))
  | [], _ => some []
  | (name, p) :: fields, values =>
    match values.lookup name with
    | none => none
    | some v =>
      match matchPattern p v, matchFields fields values with
      | some binds, some more => some (binds ++ more)
      | _, _ => none

end

/-! ## Evaluation -/

variable [Monad M]

mutual

/-- **Evaluate an expression.** -/
def eval (env : Env V) : CExpr → M V
  | .literal value => pure (language.lit value)
  | .var name =>
    match env name with
    | some v => pure v
    | none => language.unbound name
  | .call callee args => do
    let f ← eval env callee
    let vs ← evalAll env args
    language.apply f vs
  | .letE name _ value body => do
    let v ← eval env value
    eval (env.bind name v) body
  | .matchE scrutinee arms => do
    let v ← eval env scrutinee
    evalArms env v arms
  | .block statements result => do
    let _ ← evalAll env statements
    eval env result
  | .constructor name args => do
    let vs ← evalAll env args
    pure (language.construct name vs)
  | .recordLit fields => do
    let fs ← evalFields env fields
    pure (language.record fs)
  | .tupleLit items => do
    let vs ← evalAll env items
    pure (language.tuple vs)
  | .listLit items => do
    let vs ← evalAll env items
    pure (language.list vs)
  | .fieldAccess value field => do
    let v ← eval env value
    language.field v field
  | .lambda params _ _ _ body =>
    let names := params.map Prod.fst
    pure (language.closure names fun vs =>
      language.scope (eval (env.bindAll (names.zip vs)) body))
  | .binOp op lhs rhs => language.binOp op (eval env lhs) (eval env rhs)
  | .unaryOp op expr => do
    let v ← eval env expr
    language.unaryOp op v
  | .returnE value => do
    let v ← eval env value
    language.leave v

/-- Evaluate in order. -/
def evalAll (env : Env V) : List CExpr → M (List V)
  | [] => pure []
  | e :: es => do
    let v ← eval env e
    let vs ← evalAll env es
    pure (v :: vs)

/-- Evaluate fields in order. -/
def evalFields (env : Env V) : List (String × CExpr) → M (List (String × V))
  | [] => pure []
  | (name, e) :: fields => do
    let v ← eval env e
    let vs ← evalFields env fields
    pure ((name, v) :: vs)

/-- **The first arm whose pattern matches.** -/
def evalArms (env : Env V) (v : V) : List (Pattern × CExpr) → M V
  | [] => language.noMatch
  | (pattern, body) :: arms =>
    match language.matchPattern pattern v with
    | some binds => eval (env.bindAll binds) body
    | none => evalArms env v arms

end

end Language

/-! ## A pattern against a literal -/

/-- The pattern matches the value of a literal. -/
def Pattern.matchesLiteral (pattern : Pattern) (l : CLit) : Bool :=
  match pattern with
  | .pLiteral value => value.same l
  | .pVar _ | .pWild => true
  | .pConstructor _ _ | .pRecord _ => false
  | .pTuple items => items.isEmpty && l == .unit

/-- … whatever the language. -/
theorem Language.isSome_matchPattern_lit {M : Type → Type} {V : Type} (language : Language M V)
    (pattern : Pattern) (l : CLit) :
    (language.matchPattern pattern (language.lit l)).isSome = pattern.matchesLiteral l := by
  unfold matchPattern Pattern.matchesLiteral
  cases pattern with
  | pLiteral value =>
    simp only [language.view_lit]
    cases value.same l <;> rfl
  | pVar name => rfl
  | pWild => rfl
  | pConstructor name args =>
    simp only [language.view_lit]
    rfl
  | pRecord fields =>
    simp only [language.view_lit]
    rfl
  | pTuple items =>
    simp only [language.view_lit]
    cases l <;> cases items <;> rfl

end LexLang.Ast
