/-
# LexLang.Ast.Induction — induction over canonical expressions

One case for every kind of node, with the property assumed of the expressions right below it. Types are
not looked into: a predicate inside a refinement is no part of the expression around it.
-/
import LexLang.Ast.Canonical

namespace LexLang.Ast

open List

/-- **What an induction over expressions has to show.** -/
structure ExprSteps (P : CExpr → Prop) : Prop where
  literal : ∀ value, P (.literal value)
  var : ∀ name, P (.var name)
  call : ∀ callee args, P callee → (∀ e ∈ args, P e) → P (.call callee args)
  letE : ∀ name ty value body, P value → P body → P (.letE name ty value body)
  matchE : ∀ scrutinee (arms : List (Pattern × CExpr)), P scrutinee → (∀ arm ∈ arms, P arm.2) →
    P (.matchE scrutinee arms)
  block : ∀ statements result, (∀ e ∈ statements, P e) → P result → P (.block statements result)
  constructor : ∀ name args, (∀ e ∈ args, P e) → P (.constructor name args)
  recordLit : ∀ fields : List (String × CExpr), (∀ field ∈ fields, P field.2) →
    P (.recordLit fields)
  tupleLit : ∀ items, (∀ e ∈ items, P e) → P (.tupleLit items)
  listLit : ∀ items, (∀ e ∈ items, P e) → P (.listLit items)
  fieldAccess : ∀ value field, P value → P (.fieldAccess value field)
  lambda : ∀ params returnType effects effectRowVar body, P body →
    P (.lambda params returnType effects effectRowVar body)
  binOp : ∀ op lhs rhs, P lhs → P rhs → P (.binOp op lhs rhs)
  unaryOp : ∀ op expr, P expr → P (.unaryOp op expr)
  returnE : ∀ value, P value → P (.returnE value)

section Induction

variable {P : CExpr → Prop}

mutual

theorem ExprSteps.onExpr (steps : ExprSteps P) : ∀ e : CExpr, P e
  | .literal value => steps.literal value
  | .var name => steps.var name
  | .call callee args =>
    steps.call callee args (steps.onExpr callee) (steps.onAll args)
  | .letE name ty value body =>
    steps.letE name ty value body (steps.onExpr value) (steps.onExpr body)
  | .matchE scrutinee arms =>
    steps.matchE scrutinee arms (steps.onExpr scrutinee) (steps.onArms arms)
  | .block statements result =>
    steps.block statements result (steps.onAll statements) (steps.onExpr result)
  | .constructor name args => steps.constructor name args (steps.onAll args)
  | .recordLit fields => steps.recordLit fields (steps.onFields fields)
  | .tupleLit items => steps.tupleLit items (steps.onAll items)
  | .listLit items => steps.listLit items (steps.onAll items)
  | .fieldAccess value field => steps.fieldAccess value field (steps.onExpr value)
  | .lambda params returnType effects effectRowVar body =>
    steps.lambda params returnType effects effectRowVar body (steps.onExpr body)
  | .binOp op lhs rhs => steps.binOp op lhs rhs (steps.onExpr lhs) (steps.onExpr rhs)
  | .unaryOp op expr => steps.unaryOp op expr (steps.onExpr expr)
  | .returnE value => steps.returnE value (steps.onExpr value)

theorem ExprSteps.onAll (steps : ExprSteps P) : ∀ es : List CExpr, ∀ e ∈ es, P e
  | [] => forall_mem_nil _
  | e :: es => forall_mem_cons.mpr ⟨steps.onExpr e, steps.onAll es⟩

theorem ExprSteps.onFields (steps : ExprSteps P) : ∀ fields : List (String × CExpr), ∀ field ∈ fields, P field.2
  | [] => forall_mem_nil _
  | (_, e) :: fields => forall_mem_cons.mpr ⟨steps.onExpr e, steps.onFields fields⟩

theorem ExprSteps.onArms (steps : ExprSteps P) : ∀ arms : List (Pattern × CExpr), ∀ arm ∈ arms, P arm.2
  | [] => forall_mem_nil _
  | (_, e) :: arms => forall_mem_cons.mpr ⟨steps.onExpr e, steps.onArms arms⟩

end

end Induction

end LexLang.Ast
