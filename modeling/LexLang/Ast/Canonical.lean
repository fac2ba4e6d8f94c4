/-
# LexLang.Ast.Canonical — the canonical syntax tree

What a program is after canonicalization (`lex-ast/src/canonical.rs`): no `if`, no `?`, no pipes.
Floats and byte strings are kept as canonical text. Where the source's word is a keyword of Lean
(`Match`, `Let`, `Return`), the constructor ends in `E`.
-/
import Mathlib.Algebra.Group.Int.Defs
import Mathlib.Algebra.GroupWithZero.Nat
import Mathlib.Data.List.Basic

namespace LexLang.Ast

/-- A literal. -/
inductive CLit
  | int (value : Int)
  | float (value : String)
  | str (value : String)
  | bytes (value : String)
  | bool (value : Bool)
  | unit
  deriving DecidableEq

/-- The argument of an effect. -/
inductive EffectArg
  | str (value : String)
  | int (value : Int)
  | ident (value : String)
  deriving DecidableEq

/-- An effect with its argument. -/
structure Effect where
  name : String
  arg : Option EffectArg
  deriving DecidableEq

/-- A pattern. -/
inductive Pattern
  | pLiteral (value : CLit)
  | pVar (name : String)
  | pWild
  | pConstructor (name : String) (args : List Pattern)
  | pRecord (fields : List (String × Pattern))
  | pTuple (items : List Pattern)

mutual

/-- A type expression. A refinement carries its predicate. -/
inductive TypeExpr
  | named (name : String) (args : List TypeExpr)
  | record (fields : List (String × TypeExpr))
  | tuple (items : List TypeExpr)
  | function (params : List TypeExpr) (effects : List Effect) (effectRowVar : Option String)
      (ret : TypeExpr)
  | union (variants : List (String × Option TypeExpr))
  | recordWithSpreads (spreads : List String) (fields : List (String × TypeExpr))
  | refined (base : TypeExpr) (binding : String) (predicate : CExpr)

/-- **An expression.** The arms of a match are patterns with their bodies. -/
inductive CExpr
  | literal (value : CLit)
  | var (name : String)
  | call (callee : CExpr) (args : List CExpr)
  | letE (name : String) (ty : Option TypeExpr) (value body : CExpr)
  | matchE (scrutinee : CExpr) (arms : List (Pattern × CExpr))
  | block (statements : List CExpr) (result : CExpr)
  | constructor (name : String) (args : List CExpr)
  | recordLit (fields : List (String × CExpr))
  | tupleLit (items : List CExpr)
  | listLit (items : List CExpr)
  | fieldAccess (value : CExpr) (field : String)
  | lambda (params : List (String × TypeExpr)) (returnType : TypeExpr) (effects : List Effect)
      (effectRowVar : Option String) (body : CExpr)
  | binOp (op : String) (lhs rhs : CExpr)
  | unaryOp (op : String) (expr : CExpr)
  | returnE (value : CExpr)

end

/-- An example of a signature: arguments and the result expected. -/
structure Example where
  args : List CExpr
  expected : CExpr

/-- A function declaration. -/
structure FnDecl where
  name : String
  typeParams : List String
  params : List (String × TypeExpr)
  effects : List Effect
  effectRowVar : Option String
  returnType : TypeExpr
  body : CExpr
  examples : List Example
  doc : List String

/-- A type declaration. -/
structure TypeDecl where
  name : String
  params : List String
  definition : TypeExpr
  doc : List String

/-- An import. -/
structure Import where
  reference : String
  importAlias : String
  deriving DecidableEq

/-- A top-level declaration. -/
inductive Stage
  | fnDecl (decl : FnDecl)
  | typeDecl (decl : TypeDecl)
  | importDecl (decl : Import)

end LexLang.Ast
