/-
# LexLang.Loader.Mangler — renaming the declarations of one file

`Mangler` of `lex-syntax/src/loader.rs`: every declaration of a file gets the file's prefix, and every
reference to it, or through an alias of an import, is rewritten to match, unless a binder in scope has
the name. `shadow` is a set of names, kept as a list.
-/
import LexLang.Ast.Syntax

namespace LexLang.Loader

open LexLang.Syntax

/-- What the mangler of one file knows. -/
structure Mangler where
  /-- Empty for the entry of a program. -/
  prefixText : String
  /-- The names the file declares. -/
  localNames : List String
  /-- From an alias to the prefix of the imported file. -/
  pathImports : String → Option String
  /-- From an alias to the one the import got instead. -/
  aliasRenames : String → Option String

/-! ## Names -/

/-- `text.split_once(c)`. -/
def splitOnce (c : Char) (text : String) : Option (String × String) :=
  if c ∈ text.toList then
    some (String.ofList (text.toList.takeWhile (· ≠ c)),
      String.ofList ((text.toList.dropWhile (· ≠ c)).drop 1))
  else none

mutual

/-- `collect_pattern_binders`. -/
def collectPatternBinders : Pattern → List String → List String
  | .var name, out => name :: out
  | .constructor _ args, out => collectPatternsBinders args out
  | .record fields _, out => collectFieldsBinders fields out
  | .tuple items, out => collectPatternsBinders items out
  | .lit _, out => out
  | .wild, out => out

def collectPatternsBinders : List Pattern → List String → List String
  | [], out => out
  | p :: ps, out => collectPatternsBinders ps (collectPatternBinders p out)

def collectFieldsBinders : List (String × Option Pattern) → List String → List String
  | [], out => out
  | (_, some p) :: fields, out => collectFieldsBinders fields (collectPatternBinders p out)
  -- `{ name }` binds `name`
  | (name, none) :: fields, out => collectFieldsBinders fields (name :: out)

end

/-- The names a block shadows after some statements. -/
def shadowAfter (shadow : List String) : List Statement → List String
  | [] => shadow
  | .letS name _ _ :: statements => shadowAfter (name :: shadow) statements
  | .expr _ :: statements => shadowAfter shadow statements

namespace Mangler

variable (m : Mangler)

def qualify (name : String) : String :=
  if m.prefixText = "" then name else m.prefixText ++ "." ++ name

/-- `rewrite_type_name`. -/
def rewriteTypeName (name : String) : String :=
  match splitOnce '.' name with
  | some (head, rest) =>
    match m.aliasRenames head with
    | some fresh => fresh ++ "." ++ rest
    | none =>
      match m.pathImports head with
      | some child => child ++ "." ++ rest
      | none => name
  | none => if name ∈ m.localNames then m.qualify name else name

/-- The name of a value. -/
def rewriteVar (shadow : List String) (name : String) : String :=
  if name ∉ shadow ∧ name ∈ m.localNames then m.qualify name else name

/-- `alias.field` where the alias is one of an import the mangler rewrites. -/
def rewriteMember (shadow : List String) (head field : String) : Option Expr :=
  if head ∈ shadow then none
  else
    match m.aliasRenames head with
    | some fresh => some (.field (.var fresh) field)
    | none => (m.pathImports head).map fun child => .var (child ++ "." ++ field)

end Mangler

mutual

/-- `mangle_pattern`: there is no name in a pattern that is rewritten. -/
def manglePattern : Pattern → Pattern
  | .constructor name args => .constructor name (manglePatterns args)
  | .record fields rest => .record (manglePatternFields fields) rest
  | .tuple items => .tuple (manglePatterns items)
  | .lit l => .lit l
  | .var name => .var name
  | .wild => .wild

def manglePatterns : List Pattern → List Pattern
  | [] => []
  | p :: ps => manglePattern p :: manglePatterns ps

def manglePatternFields : List (String × Option Pattern) → List (String × Option Pattern)
  | [] => []
  | (name, some p) :: fields => (name, some (manglePattern p)) :: manglePatternFields fields
  | (name, none) :: fields => (name, none) :: manglePatternFields fields

end

namespace Mangler

variable (m : Mangler)

/-! ## Trees -/

mutual

/-- `mangle_type_expr`. A predicate passes unchanged. -/
def mangleTypeExpr : TypeExpr → TypeExpr
  | .named name args => .named (m.rewriteTypeName name) (mangleTypes args)
  | .record fields => .record (mangleTypeFields fields)
  | .recordWithSpreads spreads fields =>
    .recordWithSpreads (spreads.map m.rewriteTypeName) (mangleTypeFields fields)
  | .tuple items => .tuple (mangleTypes items)
  | .function params effects effectRowVar ret =>
    .function (mangleTypes params) effects effectRowVar (mangleTypeExpr ret)
  | .union variants => .union (mangleVariants variants)
  | .refined base binding predicate => .refined (mangleTypeExpr base) binding predicate

def mangleTypes : List TypeExpr → List TypeExpr
  | [] => []
  | t :: ts => mangleTypeExpr t :: mangleTypes ts

def mangleTypeFields : List (String × TypeExpr) → List (String × TypeExpr)
  | [] => []
  | (name, t) :: fields => (name, mangleTypeExpr t) :: mangleTypeFields fields

def mangleVariants : List (String × Option TypeExpr) → List (String × Option TypeExpr)
  | [] => []
  | (name, some t) :: variants => (name, some (mangleTypeExpr t)) :: mangleVariants variants
  | (name, none) :: variants => (name, none) :: mangleVariants variants

def mangleBlock (shadow : List String) : Block → Block
  | .mk statements result =>
    .mk (mangleStatements shadow statements) (mangleExpr (shadowAfter shadow statements) result)

/-- The statements of a block; the value of a let is outside its scope. -/
def mangleStatements (shadow : List String) : List Statement → List Statement
  | [] => []
  | .letS name (some t) value :: statements =>
    .letS name (some (mangleTypeExpr t)) (mangleExpr shadow value) ::
      mangleStatements (name :: shadow) statements
  | .letS name none value :: statements =>
    .letS name none (mangleExpr shadow value) :: mangleStatements (name :: shadow) statements
  | .expr e :: statements => .expr (mangleExpr shadow e) :: mangleStatements shadow statements

/-- `mangle_expr`. The source looks at `alias.field` twice, as a callee and as an expression. -/
def mangleExpr (shadow : List String) : Expr → Expr
  | .lit l => .lit l
  | .var name => .var (m.rewriteVar shadow name)
  | .block b => .block (mangleBlock shadow b)
  | .call (.field (.var head) field) args =>
    match m.rewriteMember shadow head field with
    | some callee => .call callee (mangleExprs shadow args)
    | none => .call (.field (.var (m.rewriteVar shadow head)) field) (mangleExprs shadow args)
  | .call callee args => .call (mangleExpr shadow callee) (mangleExprs shadow args)
  | .pipe left right => .pipe (mangleExpr shadow left) (mangleExpr shadow right)
  | .tryE inner => .tryE (mangleExpr shadow inner)
  | .field (.var head) field =>
    match m.rewriteMember shadow head field with
    | some e => e
    | none => .field (.var (m.rewriteVar shadow head)) field
  | .field value field => .field (mangleExpr shadow value) field
  | .binOp op lhs rhs => .binOp op (mangleExpr shadow lhs) (mangleExpr shadow rhs)
  | .unaryOp op e => .unaryOp op (mangleExpr shadow e)
  | .ifE cond thenBlock elseBlock =>
    .ifE (mangleExpr shadow cond) (mangleBlock shadow thenBlock) (mangleBlock shadow elseBlock)
  | .matchE scrutinee arms => .matchE (mangleExpr shadow scrutinee) (mangleArms shadow arms)
  | .recordLit fields => .recordLit (mangleFields shadow fields)
  | .tupleLit items => .tupleLit (mangleExprs shadow items)
  | .listLit items => .listLit (mangleExprs shadow items)
  | .constructor name args => .constructor name (mangleExprs shadow args)
  | .ascription value ty => .ascription (mangleExpr shadow value) (mangleTypeExpr ty)
  | .lambda params returnType effects effectRowVar body =>
    .lambda (mangleTypeFields params) (mangleTypeExpr returnType) effects effectRowVar
      (mangleBlock ((params.map Prod.fst).reverse ++ shadow) body)

def mangleExprs (shadow : List String) : List Expr → List Expr
  | [] => []
  | e :: es => mangleExpr shadow e :: mangleExprs shadow es

def mangleFields (shadow : List String) : List (String × Expr) → List (String × Expr)
  | [] => []
  | (name, e) :: fields => (name, mangleExpr shadow e) :: mangleFields shadow fields

def mangleArms (shadow : List String) : List (Pattern × Expr) → List (Pattern × Expr)
  | [] => []
  | (pattern, body) :: arms =>
    (manglePattern pattern, mangleExpr (collectPatternBinders pattern shadow) body) ::
      mangleArms shadow arms

end

/-! ## Declarations -/

def mangleTypeDecl (td : TypeDecl) : TypeDecl :=
  { td with name := m.qualify td.name, definition := m.mangleTypeExpr td.definition }

/-- Examples are read outside the scope of the parameters. -/
def mangleExample (ex : Example) : Example where
  args := m.mangleExprs [] ex.args
  expected := m.mangleExpr [] ex.expected

def mangleFnDecl (fd : FnDecl) : FnDecl :=
  { fd with
    name := m.qualify fd.name
    params := m.mangleTypeFields fd.params
    returnType := m.mangleTypeExpr fd.returnType
    body := m.mangleBlock (fd.params.map Prod.fst).reverse fd.body
    examples := fd.examples.map m.mangleExample }

/-- `mangle_item`. -/
def mangleItem : Item → Item
  | .importDecl i => .importDecl i
  | .typeDecl td => .typeDecl (m.mangleTypeDecl td)
  | .fnDecl fd => .fnDecl (m.mangleFnDecl fd)

end Mangler

end LexLang.Loader
