/-
# LexLang.Ast.Syntax — the syntax tree

What the parser gives, before canonicalization (`lex-syntax/src/syntax.rs`). Comments are lines of
text; those after the last declaration are not kept. A float is its 64 bits. Where the source's word is
a keyword of Lean (`Match`, `If`, `Try`), the constructor ends in `E`.
-/
import Mathlib.Data.BitVec

namespace LexLang.Syntax

open List

inductive Literal
  | int (n : Int)
  | float (f : BitVec 64)
  | str (s : String)
  | bytes (b : List UInt8)
  | bool (b : Bool)
  | unit

inductive EffectArg
  | str (s : String)
  | int (n : Int)
  | ident (s : String)
  deriving DecidableEq

structure Effect where
  name : String
  arg : Option EffectArg
  deriving DecidableEq

inductive BinOp
  | add | sub | mul | div | mod
  | eq | neq | lt | lte | gt | gte
  | and | or

def BinOp.asStr : BinOp → String
  | .add => "+" | .sub => "-" | .mul => "*" | .div => "/" | .mod => "%"
  | .eq => "==" | .neq => "!=" | .lt => "<" | .lte => "<=" | .gt => ">" | .gte => ">="
  | .and => "and" | .or => "or"

inductive UnaryOp
  | neg | not

/-- A pattern. A field of a record pattern without a pattern binds its own name. -/
inductive Pattern
  | lit (l : Literal)
  | var (name : String)
  | wild
  | constructor (name : String) (args : List Pattern)
  | record (fields : List (String × Option Pattern)) (rest : Bool)
  | tuple (items : List Pattern)

mutual

inductive TypeExpr
  | named (name : String) (args : List TypeExpr)
  | record (fields : List (String × TypeExpr))
  | tuple (items : List TypeExpr)
  | function (params : List TypeExpr) (effects : List Effect) (effectRowVar : Option String) (ret : TypeExpr)
  | union (variants : List (String × Option TypeExpr))
  | recordWithSpreads (spreads : List String) (fields : List (String × TypeExpr))
  | refined (base : TypeExpr) (binding : String) (predicate : Expr)

inductive Expr
  | lit (l : Literal)
  | var (name : String)
  | block (b : Block)
  | call (callee : Expr) (args : List Expr)
  | pipe (left right : Expr)
  | tryE (inner : Expr)
  | field (value : Expr) (field : String)
  | binOp (op : BinOp) (lhs rhs : Expr)
  | unaryOp (op : UnaryOp) (expr : Expr)
  | ifE (cond : Expr) (thenBlock elseBlock : Block)
  | matchE (scrutinee : Expr) (arms : List (Pattern × Expr))
  | recordLit (fields : List (String × Expr))
  | tupleLit (items : List Expr)
  | listLit (items : List Expr)
  | constructor (name : String) (args : List Expr)
  | lambda (params : List (String × TypeExpr)) (returnType : TypeExpr) (effects : List Effect)
      (effectRowVar : Option String) (body : Block)
  | ascription (value : Expr) (ty : TypeExpr)

inductive Block
  | mk (statements : List Statement) (result : Expr)

inductive Statement
  | letS (name : String) (ty : Option TypeExpr) (value : Expr)
  | expr (e : Expr)

end

structure Example where
  args : List Expr
  expected : Expr

structure Import where
  reference : String
  importAlias : String

structure TypeDecl where
  name : String
  params : List String
  definition : TypeExpr
  leadingComments : List String

structure FnDecl where
  name : String
  typeParams : List String
  params : List (String × TypeExpr)
  effects : List Effect
  effectRowVar : Option String
  returnType : TypeExpr
  body : Block
  examples : List Example
  leadingComments : List String

inductive Item
  | importDecl (decl : Import)
  | typeDecl (decl : TypeDecl)
  | fnDecl (decl : FnDecl)

/-- **A program**, with the comments at the top of its file. -/
structure Program where
  items : List Item
  leadingComments : List String

/-! ## Induction over trees -/

/-- **What an induction over types, expressions, blocks and statements has to show.** -/
structure TreeSteps (PType : TypeExpr → Prop) (PExpr : Expr → Prop) (PBlock : Block → Prop)
    (PStatement : Statement → Prop) : Prop where
  named : ∀ name args, (∀ t ∈ args, PType t) → PType (.named name args)
  record : ∀ fields : List (String × TypeExpr), (∀ field ∈ fields, PType field.2) → PType (.record fields)
  tuple : ∀ items, (∀ t ∈ items, PType t) → PType (.tuple items)
  function : ∀ params effects effectRowVar ret, (∀ t ∈ params, PType t) → PType ret →
    PType (.function params effects effectRowVar ret)
  union : ∀ variants : List (String × Option TypeExpr),
    (∀ variant ∈ variants, ∀ t ∈ variant.2, PType t) → PType (.union variants)
  recordWithSpreads : ∀ spreads (fields : List (String × TypeExpr)), (∀ field ∈ fields, PType field.2) →
    PType (.recordWithSpreads spreads fields)
  refined : ∀ base binding predicate, PType base → PExpr predicate →
    PType (.refined base binding predicate)
  lit : ∀ l, PExpr (.lit l)
  var : ∀ name, PExpr (.var name)
  block : ∀ b, PBlock b → PExpr (.block b)
  call : ∀ callee args, PExpr callee → (∀ e ∈ args, PExpr e) → PExpr (.call callee args)
  pipe : ∀ left right, PExpr left → PExpr right → PExpr (.pipe left right)
  tryE : ∀ inner, PExpr inner → PExpr (.tryE inner)
  field : ∀ value field, PExpr value → PExpr (.field value field)
  binOp : ∀ op lhs rhs, PExpr lhs → PExpr rhs → PExpr (.binOp op lhs rhs)
  unaryOp : ∀ op expr, PExpr expr → PExpr (.unaryOp op expr)
  ifE : ∀ cond thenBlock elseBlock, PExpr cond → PBlock thenBlock → PBlock elseBlock →
    PExpr (.ifE cond thenBlock elseBlock)
  matchE : ∀ scrutinee (arms : List (Pattern × Expr)), PExpr scrutinee → (∀ arm ∈ arms, PExpr arm.2) →
    PExpr (.matchE scrutinee arms)
  recordLit : ∀ fields : List (String × Expr), (∀ field ∈ fields, PExpr field.2) →
    PExpr (.recordLit fields)
  tupleLit : ∀ items, (∀ e ∈ items, PExpr e) → PExpr (.tupleLit items)
  listLit : ∀ items, (∀ e ∈ items, PExpr e) → PExpr (.listLit items)
  constructor : ∀ name args, (∀ e ∈ args, PExpr e) → PExpr (.constructor name args)
  lambda : ∀ (params : List (String × TypeExpr)) returnType effects effectRowVar body,
    (∀ param ∈ params, PType param.2) → PType returnType → PBlock body →
    PExpr (.lambda params returnType effects effectRowVar body)
  ascription : ∀ value ty, PExpr value → PType ty → PExpr (.ascription value ty)
  statements : ∀ statements result, (∀ stmt ∈ statements, PStatement stmt) → PExpr result →
    PBlock (.mk statements result)
  letS : ∀ name ty value, (∀ t ∈ ty, PType t) → PExpr value → PStatement (.letS name ty value)
  expr : ∀ e, PExpr e → PStatement (.expr e)

/-- What an induction over patterns has to show. -/
structure PatternSteps (P : Pattern → Prop) : Prop where
  lit : ∀ l, P (.lit l)
  var : ∀ name, P (.var name)
  wild : P .wild
  constructor : ∀ name args, (∀ p ∈ args, P p) → P (.constructor name args)
  record : ∀ (fields : List (String × Option Pattern)) rest,
    (∀ field ∈ fields, ∀ p ∈ field.2, P p) → P (.record fields rest)
  tuple : ∀ items, (∀ p ∈ items, P p) → P (.tuple items)

section Induction

variable {α β : Type} [SizeOf α] [SizeOf β]

theorem sizeOf_snd_lt {l : List (α × β)} {x : α × β} (hx : x ∈ l) : sizeOf x.2 < sizeOf l := by
  have hlt := sizeOf_lt_of_mem hx
  have hsnd : sizeOf x = 1 + sizeOf x.1 + sizeOf x.2 := by
    obtain ⟨a, b⟩ := x
    rfl
  omega

theorem sizeOf_lt_of_mem_some {a : α} {o : Option α} (ha : a ∈ o) : sizeOf a < sizeOf o := by
  obtain rfl := Option.mem_def.mp ha
  simp

theorem PatternSteps.onPattern {P : Pattern → Prop} (steps : PatternSteps P) : ∀ p : Pattern, P p
  | .lit l => steps.lit l
  | .var name => steps.var name
  | .wild => steps.wild
  | .constructor name args => steps.constructor name args fun p _hp => onPattern steps p
  | .record fields rest => steps.record fields rest fun field _hfield p _hp => onPattern steps p
  | .tuple items => steps.tuple items fun p _hp => onPattern steps p
termination_by p => sizeOf p
decreasing_by
  all_goals simp_wf
  · have := sizeOf_lt_of_mem _hp
    omega
  · have := sizeOf_snd_lt _hfield
    have := sizeOf_lt_of_mem_some _hp
    omega
  · have := sizeOf_lt_of_mem _hp
    omega

variable {PType : TypeExpr → Prop} {PExpr : Expr → Prop} {PBlock : Block → Prop}
  {PStatement : Statement → Prop} (steps : TreeSteps PType PExpr PBlock PStatement)

include steps

mutual

theorem TreeSteps.onType : ∀ t : TypeExpr, PType t
  | .named name args => steps.named name args fun t _ht => TreeSteps.onType t
  | .record fields => steps.record fields fun field _hfield => TreeSteps.onType field.2
  | .tuple items => steps.tuple items fun t _ht => TreeSteps.onType t
  | .function params effects effectRowVar ret =>
    steps.function params effects effectRowVar ret (fun t _ht => TreeSteps.onType t) (TreeSteps.onType ret)
  | .union variants => steps.union variants fun variant _hvariant t _ht => TreeSteps.onType t
  | .recordWithSpreads spreads fields =>
    steps.recordWithSpreads spreads fields fun field _hfield => TreeSteps.onType field.2
  | .refined base binding predicate =>
    steps.refined base binding predicate (TreeSteps.onType base) (TreeSteps.onExpr predicate)
termination_by t => sizeOf t
decreasing_by
  all_goals simp_wf
  all_goals first
    | omega
    | have := sizeOf_lt_of_mem _ht; omega
    | have := sizeOf_snd_lt _hfield; omega
    | have := sizeOf_snd_lt _hvariant; have := sizeOf_lt_of_mem_some _ht; omega

theorem TreeSteps.onExpr : ∀ e : Expr, PExpr e
  | .lit l => steps.lit l
  | .var name => steps.var name
  | .block b => steps.block b (TreeSteps.onBlock b)
  | .call callee args => steps.call callee args (TreeSteps.onExpr callee) fun e _he => TreeSteps.onExpr e
  | .pipe left right => steps.pipe left right (TreeSteps.onExpr left) (TreeSteps.onExpr right)
  | .tryE inner => steps.tryE inner (TreeSteps.onExpr inner)
  | .field value field => steps.field value field (TreeSteps.onExpr value)
  | .binOp op lhs rhs => steps.binOp op lhs rhs (TreeSteps.onExpr lhs) (TreeSteps.onExpr rhs)
  | .unaryOp op expr => steps.unaryOp op expr (TreeSteps.onExpr expr)
  | .ifE cond thenBlock elseBlock =>
    steps.ifE cond thenBlock elseBlock (TreeSteps.onExpr cond) (TreeSteps.onBlock thenBlock)
      (TreeSteps.onBlock elseBlock)
  | .matchE scrutinee arms =>
    steps.matchE scrutinee arms (TreeSteps.onExpr scrutinee) fun arm _harm => TreeSteps.onExpr arm.2
  | .recordLit fields => steps.recordLit fields fun field _hfield => TreeSteps.onExpr field.2
  | .tupleLit items => steps.tupleLit items fun e _he => TreeSteps.onExpr e
  | .listLit items => steps.listLit items fun e _he => TreeSteps.onExpr e
  | .constructor name args => steps.constructor name args fun e _he => TreeSteps.onExpr e
  | .lambda params returnType effects effectRowVar body =>
    steps.lambda params returnType effects effectRowVar body (fun param _hparam => TreeSteps.onType param.2)
      (TreeSteps.onType returnType) (TreeSteps.onBlock body)
  | .ascription value ty => steps.ascription value ty (TreeSteps.onExpr value) (TreeSteps.onType ty)
termination_by e => sizeOf e
decreasing_by
  all_goals simp_wf
  all_goals first
    | omega
    | have := sizeOf_lt_of_mem _he; omega
    | have := sizeOf_snd_lt _harm; omega
    | have := sizeOf_snd_lt _hfield; omega
    | have := sizeOf_snd_lt _hparam; omega

theorem TreeSteps.onBlock : ∀ b : Block, PBlock b
  | .mk statements result =>
    steps.statements statements result (fun stmt _hstmt => TreeSteps.onStatement stmt) (TreeSteps.onExpr result)
termination_by b => sizeOf b
decreasing_by
  all_goals simp_wf
  all_goals first
    | omega
    | have := sizeOf_lt_of_mem _hstmt; omega

theorem TreeSteps.onStatement : ∀ s : Statement, PStatement s
  | .letS name ty value =>
    steps.letS name ty value (fun t _ht => TreeSteps.onType t) (TreeSteps.onExpr value)
  | .expr e => steps.expr e (TreeSteps.onExpr e)
termination_by s => sizeOf s
decreasing_by
  all_goals simp_wf
  all_goals first
    | omega
    | have := sizeOf_lt_of_mem_some _ht; omega

end

end Induction

end LexLang.Syntax
