/-
# LexLang.Ast.Canonicalize — from the syntax tree to the canonical one

`lex-ast/src/canonicalize.rs`: an `if` becomes a match, `?` a match that returns, a pipe a call, the
statements of a block nested lets, a name with a capital a constructor. Entries that may stand in any
order are sorted by name: the fields of record types, record literals and record patterns, the variants
of a union, the effects of function types and lambdas. The effects of a function declaration and the
fields beside a spread stay as they were written.
-/
import LexLang.Ast.DeadBranch
import LexLang.Ast.Syntax
import LexLang.Order.Presentation
import Mathlib.Data.String.Basic

namespace LexLang.Ast

open LexLang.Order

/-! ## Names and literals -/

/-- What comes after the last dot of a name. -/
def unqualified (name : String) : String :=
  String.ofList (name.toList.reverse.takeWhile fun c => c ≠ '.').reverse

def isConstructorName (name : String) : Bool := name.toList.head?.any Char.isUpper

def hexDigit (n : Nat) : Char := "0123456789abcdef".toList.getD n '0'

def hex (bytes : List UInt8) : String :=
  String.ofList (bytes.flatMap fun b => [hexDigit (b.toNat / 16), hexDigit (b.toNat % 16)])

variable (display : BitVec 64 → String)

/-- The text of a float. `display` gives the shortest that reads back as the same float. -/
def formatCanonicalFloat (f : BitVec 64) : String :=
  if (f >>> 52) &&& 0x7ff#64 ≠ 0x7ff#64 then
    let s := display f
    -- a float must not look like an integer
    if !s.toList.contains '.' && !s.toList.contains 'e' && !s.toList.contains 'E' then s ++ ".0" else s
  else if f &&& 0xfffffffffffff#64 ≠ 0#64 then "NaN"
  else if f.msb then "-Infinity" else "Infinity"

def canonicalizeLit : Syntax.Literal → CLit
  | .int n => .int n
  | .float f => .float (formatCanonicalFloat display f)
  | .str s => .str s
  | .bytes b => .bytes (hex b)
  | .bool b => .bool b
  | .unit => .unit

def canonicalizeEffect (e : Syntax.Effect) : Effect where
  name := e.name
  arg := e.arg.map fun
    | .str s => .str s
    | .int n => .int n
    | .ident s => .ident s

/-! ## Patterns -/

mutual

def canonicalizePattern : Syntax.Pattern → Pattern
  | .lit l => .pLiteral (canonicalizeLit display l)
  | .var name => if isConstructorName name then .pConstructor name [] else .pVar name
  | .wild => .pWild
  | .constructor name args => .pConstructor name (canonicalizePatterns args)
  | .record fields _ => .pRecord (sortBy Prod.fst (canonicalizePatternFields fields))
  | .tuple items => .pTuple (canonicalizePatterns items)

def canonicalizePatterns : List Syntax.Pattern → List Pattern
  | [] => []
  | p :: ps => canonicalizePattern p :: canonicalizePatterns ps

def canonicalizePatternFields : List (String × Option Syntax.Pattern) → List (String × Pattern)
  | [] => []
  | (name, some p) :: fields => (name, canonicalizePattern p) :: canonicalizePatternFields fields
  | (name, none) :: fields => (name, .pVar name) :: canonicalizePatternFields fields

end

attribute [local simp] canonicalizePattern canonicalizePatterns canonicalizePatternFields

/-! ## Blocks -/

/-- A statement with its parts canonicalized. -/
inductive CStatement
  | letS (name : String) (ty : Option TypeExpr) (value : CExpr)
  | expr (e : CExpr)

/-- Put expressions that are waiting before what follows them. -/
def flushPending (pending : List CExpr) (acc : CExpr) : CExpr :=
  if pending.isEmpty then acc else .block pending acc

/-- One statement, from the end: what follows it, and the expressions right after it. -/
def foldStatement (stmt : CStatement) : CExpr × List CExpr → CExpr × List CExpr
  | (acc, pending) =>
    match stmt with
    | .letS name ty value => (.letE name ty value (flushPending pending acc), [])
    | .expr e => (acc, e :: pending)

/-- **Statements become nested lets**; expressions in a row become one block. -/
def foldBlock (stmts : List CStatement) (result : CExpr) : CExpr :=
  let (acc, pending) := stmts.foldr foldStatement (result, [])
  flushPending pending acc

/-! ## Types and expressions -/

/-- `x |> f` is `f(x)`, and `x |> f(args)` is `f(x, args)`. -/
def pipeInto (left : CExpr) : CExpr → CExpr
  | .call callee args => .call callee (left :: args)
  | .constructor name args => .constructor name (left :: args)
  | other => .call other [left]

/-- What `v?` becomes: the value of `Ok`, or a return of `Err`. -/
def tryMatch (v : CExpr) : CExpr :=
  .matchE v
    [(.pConstructor "Ok" [.pVar "v"], .var "v"),
      (.pConstructor "Err" [.pVar "e"], .returnE (.constructor "Err" [.var "e"]))]

mutual

def canonicalizeType : Syntax.TypeExpr → TypeExpr
  | .named name args => .named name (canonicalizeTypes args)
  | .record fields => .record (sortBy Prod.fst (canonicalizeTypeFields fields))
  | .tuple items => .tuple (canonicalizeTypes items)
  | .function params effects effectRowVar ret =>
    .function (canonicalizeTypes params) (sortBy Effect.name (effects.map canonicalizeEffect)) effectRowVar
      (canonicalizeType ret)
  | .recordWithSpreads spreads fields => .recordWithSpreads spreads (canonicalizeTypeFields fields)
  | .union variants => .union (sortBy Prod.fst (canonicalizeVariants variants))
  | .refined base binding predicate =>
    .refined (canonicalizeType base) binding (canonicalizeExpr predicate)

def canonicalizeTypes : List Syntax.TypeExpr → List TypeExpr
  | [] => []
  | t :: ts => canonicalizeType t :: canonicalizeTypes ts

/-- Names with their types: fields or parameters. -/
def canonicalizeTypeFields : List (String × Syntax.TypeExpr) → List (String × TypeExpr)
  | [] => []
  | (name, t) :: fields => (name, canonicalizeType t) :: canonicalizeTypeFields fields

def canonicalizeVariants : List (String × Option Syntax.TypeExpr) → List (String × Option TypeExpr)
  | [] => []
  | (name, some t) :: variants => (name, some (canonicalizeType t)) :: canonicalizeVariants variants
  | (name, none) :: variants => (name, none) :: canonicalizeVariants variants

def canonicalizeBlock : Syntax.Block → CExpr
  | .mk statements result => foldBlock (canonicalizeStatements statements) (canonicalizeExpr result)

def canonicalizeStatements : List Syntax.Statement → List CStatement
  | [] => []
  | stmt :: stmts => canonicalizeStatement stmt :: canonicalizeStatements stmts

def canonicalizeStatement : Syntax.Statement → CStatement
  | .letS name (some t) value => .letS name (some (canonicalizeType t)) (canonicalizeExpr value)
  | .letS name none value => .letS name none (canonicalizeExpr value)
  | .expr e => .expr (canonicalizeExpr e)

/-- **Canonicalize an expression.** -/
def canonicalizeExpr : Syntax.Expr → CExpr
  | .lit l => .literal (canonicalizeLit display l)
  | .var name =>
    if isConstructorName (unqualified name) then .constructor (unqualified name) [] else .var name
  | .block b => canonicalizeBlock b
  | .call callee args =>
    match callee with
    | .var name =>
      if isConstructorName (unqualified name) then .constructor (unqualified name) (canonicalizeExprs args)
      else .call (.var name) (canonicalizeExprs args)
    | _ => .call (canonicalizeExpr callee) (canonicalizeExprs args)
  | .pipe left right => pipeInto (canonicalizeExpr left) (canonicalizeExpr right)
  | .tryE inner => tryMatch (canonicalizeExpr inner)
  | .field value field => .fieldAccess (canonicalizeExpr value) field
  | .binOp op lhs rhs => .binOp op.asStr (canonicalizeExpr lhs) (canonicalizeExpr rhs)
  | .unaryOp op expr => .unaryOp (match op with | .neg => "-" | .not => "not") (canonicalizeExpr expr)
  | .ifE cond thenBlock elseBlock =>
    .matchE (canonicalizeExpr cond)
      [(.pLiteral (.bool true), canonicalizeBlock thenBlock),
        (.pLiteral (.bool false), canonicalizeBlock elseBlock)]
  | .matchE scrutinee arms => .matchE (canonicalizeExpr scrutinee) (canonicalizeArms arms)
  | .recordLit fields => .recordLit (sortBy Prod.fst (canonicalizeFields fields))
  | .tupleLit items => .tupleLit (canonicalizeExprs items)
  | .listLit items => .listLit (canonicalizeExprs items)
  | .constructor name args => .constructor name (canonicalizeExprs args)
  | .ascription value ty =>
    -- a typed let, for the type checker
    .letE "__ascription" (some (canonicalizeType ty)) (canonicalizeExpr value) (.var "__ascription")
  | .lambda params returnType effects effectRowVar body =>
    .lambda (canonicalizeTypeFields params) (canonicalizeType returnType)
      (sortBy Effect.name (effects.map canonicalizeEffect)) effectRowVar (canonicalizeBlock body)

def canonicalizeExprs : List Syntax.Expr → List CExpr
  | [] => []
  | e :: es => canonicalizeExpr e :: canonicalizeExprs es

def canonicalizeFields : List (String × Syntax.Expr) → List (String × CExpr)
  | [] => []
  | (name, e) :: fields => (name, canonicalizeExpr e) :: canonicalizeFields fields

def canonicalizeArms : List (Syntax.Pattern × Syntax.Expr) → List (Pattern × CExpr)
  | [] => []
  | (pattern, body) :: arms => (canonicalizePattern display pattern, canonicalizeExpr body) :: canonicalizeArms arms

end

attribute [local simp] canonicalizeType canonicalizeTypes canonicalizeTypeFields canonicalizeVariants
  canonicalizeBlock canonicalizeStatements canonicalizeStatement canonicalizeExpr canonicalizeExprs
  canonicalizeFields canonicalizeArms

/-! ## Programs -/

def canonicalizeExample (ex : Syntax.Example) : Example where
  args := canonicalizeExprs display ex.args
  expected := canonicalizeExpr display ex.expected

def canonicalizeTypeDecl (td : Syntax.TypeDecl) : TypeDecl where
  name := td.name
  params := td.params
  definition := canonicalizeType display td.definition
  doc := td.leadingComments

def canonicalizeFnDecl (fd : Syntax.FnDecl) : FnDecl where
  name := fd.name
  typeParams := fd.typeParams
  params := canonicalizeTypeFields display fd.params
  effects := fd.effects.map canonicalizeEffect
  effectRowVar := fd.effectRowVar
  returnType := canonicalizeType display fd.returnType
  body := canonicalizeBlock display fd.body
  examples := fd.examples.map (canonicalizeExample display)
  doc := fd.leadingComments

def canonicalizeItem : Syntax.Item → Stage
  | .importDecl i => .importDecl ⟨i.reference, i.importAlias⟩
  | .typeDecl td => .typeDecl (canonicalizeTypeDecl display td)
  | .fnDecl fd => .fnDecl (canonicalizeFnDecl display fd)

/-- The comments of the file go to the first declaration that is no import. -/
def addHeader (header : List String) : List Stage → List Stage
  | [] => []
  | .fnDecl fd :: stages => .fnDecl { fd with doc := header ++ fd.doc } :: stages
  | .typeDecl td :: stages => .typeDecl { td with doc := header ++ td.doc } :: stages
  | .importDecl i :: stages => .importDecl i :: addHeader header stages

/-- **Canonicalize a program**, and fold its dead branches. -/
def canonicalizeProgram (program : Syntax.Program) : List Stage :=
  let raw := program.items.map (canonicalizeItem display)
  eliminateDeadBranchesInStages
    (if program.leadingComments.isEmpty then raw else addHeader program.leadingComments raw)

end LexLang.Ast
