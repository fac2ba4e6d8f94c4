/-
# LexLang.Loader.Occurrences — where a program names something

Every place of a tree where a value or a type is named, in the order of the text, with the binders around
it. `a.f` is one occurrence: only a scope tells whether `a` is a value or the alias of an import. A name
with a dot in it belongs to a declaration of a merged program; a parser gives none in an expression.
Constructors, field names and effects are not names in this sense.
-/
import LexLang.Ast.Canonicalize

namespace LexLang.Loader

open LexLang.Syntax
open LexLang.Ast (isConstructorName unqualified)

/-! ## Sites -/

/-- A name where a binder writes one. A pattern that is a constructor without arguments looks like a
variable there, and binds nothing. -/
structure Binding where
  name : String
  binds : Bool
  deriving DecidableEq

/-- What is around an occurrence: values bound there, innermost first, and type parameters. -/
structure Site where
  bound : List Binding
  typeParams : List String
  deriving DecidableEq

namespace Site

def names (s : Site) : List String := s.bound.map Binding.name

/-- A scope of a declaration with these type parameters, before anything is bound. -/
def top (typeParams : List String) : Site := ⟨[], typeParams⟩

def bind (s : Site) (names : List String) : Site :=
  { s with bound := (names.map fun name => ⟨name, true⟩).reverse ++ s.bound }

def underPattern (s : Site) (bindings : List Binding) : Site := { s with bound := bindings ++ s.bound }

/-- After some statements: their lets. -/
def after (s : Site) : List Statement → Site
  | [] => s
  | .letS name _ _ :: statements => (s.bind [name]).after statements
  | .expr _ :: statements => s.after statements

/-- The innermost binder of a name, counted outwards. -/
def binder (s : Site) (name : String) : Option Nat :=
  s.bound.findIdx? fun b => b.name = name && b.binds

/-- The type parameter of that name. -/
def typeParam (s : Site) (name : String) : Option Nat := s.typeParams.findIdx? (· = name)

end Site

/-! ## Patterns -/

mutual

/-- What a pattern writes where it could bind, the last first. -/
def patternBindings : Pattern → List Binding
  | .lit _ => []
  | .wild => []
  | .var name => [⟨name, !isConstructorName name⟩]
  | .constructor _ args => patternsBindings args
  | .record fields _ => patternFieldsBindings fields
  | .tuple items => patternsBindings items

def patternsBindings : List Pattern → List Binding
  | [] => []
  | p :: ps => patternsBindings ps ++ patternBindings p

def patternFieldsBindings : List (String × Option Pattern) → List Binding
  | [] => []
  | (_, some p) :: fields => patternFieldsBindings fields ++ patternBindings p
  | (name, none) :: fields => patternFieldsBindings fields ++ [⟨name, true⟩]

end

/-! ## Occurrences -/

def dotted (name : String) : Bool := '.' ∈ name.toList

theorem dotted_eq_false {name : String} : dotted name = false ↔ '.' ∉ name.toList := by
  simp [dotted]

inductive Reference
  | value (name : String)
  | member (head field : String) (plain : dotted head = false)
  | type (name : String)
  deriving DecidableEq

/-- A name at a site, and whether that is in the predicate of a refinement. -/
structure Occurrence where
  site : Site
  reference : Reference
  inPredicate : Bool
  deriving DecidableEq

def Occurrence.under (o : Occurrence) : Occurrence := { o with inPredicate := true }

/-- `head.field`: a field of a declared value where `head` is the name of a declaration of a merged
program. -/
def Reference.headed (head field : String) : Reference :=
  if h : dotted head = false then .member head field h else .value head

mutual

def typeOccurrences (s : Site) : TypeExpr → List Occurrence
  | .named name args => ⟨s, .type name, false⟩ :: typesOccurrences s args
  | .record fields => typeFieldsOccurrences s fields
  | .tuple items => typesOccurrences s items
  | .function params _ _ ret => typesOccurrences s params ++ typeOccurrences s ret
  | .union variants => variantsOccurrences s variants
  | .recordWithSpreads spreads fields =>
    (spreads.map fun name => ⟨s, .type name, false⟩) ++ typeFieldsOccurrences s fields
  -- a predicate sees what its type sees, and its binding
  | .refined base binding predicate =>
    typeOccurrences s base ++ (exprOccurrences (s.bind [binding]) predicate).map Occurrence.under

def typesOccurrences (s : Site) : List TypeExpr → List Occurrence
  | [] => []
  | t :: ts => typeOccurrences s t ++ typesOccurrences s ts

def typeFieldsOccurrences (s : Site) : List (String × TypeExpr) → List Occurrence
  | [] => []
  | (_, t) :: fields => typeOccurrences s t ++ typeFieldsOccurrences s fields

def variantsOccurrences (s : Site) : List (String × Option TypeExpr) → List Occurrence
  | [] => []
  | (_, some t) :: variants => typeOccurrences s t ++ variantsOccurrences s variants
  | (_, none) :: variants => variantsOccurrences s variants

def blockOccurrences (s : Site) : Block → List Occurrence
  | .mk statements result => statementsOccurrences s statements ++ exprOccurrences (s.after statements) result

def statementsOccurrences (s : Site) : List Statement → List Occurrence
  | [] => []
  | .letS name (some t) value :: statements =>
    exprOccurrences s value ++ typeOccurrences s t ++ statementsOccurrences (s.bind [name]) statements
  | .letS name none value :: statements =>
    exprOccurrences s value ++ statementsOccurrences (s.bind [name]) statements
  | .expr e :: statements => exprOccurrences s e ++ statementsOccurrences s statements

def exprOccurrences (s : Site) : Expr → List Occurrence
  | .lit _ => []
  | .var name => [⟨s, .value name, false⟩]
  | .block b => blockOccurrences s b
  | .call callee args => exprsOccurrences s args ++ exprOccurrences s callee
  | .pipe left right => exprOccurrences s left ++ exprOccurrences s right
  | .tryE inner => exprOccurrences s inner
  | .field (.var head) field => [⟨s, .headed head field, false⟩]
  | .field value _ => exprOccurrences s value
  | .binOp _ lhs rhs => exprOccurrences s lhs ++ exprOccurrences s rhs
  | .unaryOp _ e => exprOccurrences s e
  | .ifE cond thenBlock elseBlock =>
    exprOccurrences s cond ++ blockOccurrences s thenBlock ++ blockOccurrences s elseBlock
  | .matchE scrutinee arms => exprOccurrences s scrutinee ++ armsOccurrences s arms
  | .recordLit fields => fieldsOccurrences s fields
  | .tupleLit items => exprsOccurrences s items
  | .listLit items => exprsOccurrences s items
  | .constructor _ args => exprsOccurrences s args
  | .lambda params returnType _ _ body =>
    typeFieldsOccurrences (s.bind (params.map Prod.fst)) params ++
      typeOccurrences (s.bind (params.map Prod.fst)) returnType ++
        blockOccurrences (s.bind (params.map Prod.fst)) body
  | .ascription value ty => exprOccurrences s value ++ typeOccurrences s ty

def exprsOccurrences (s : Site) : List Expr → List Occurrence
  | [] => []
  | e :: es => exprOccurrences s e ++ exprsOccurrences s es

def fieldsOccurrences (s : Site) : List (String × Expr) → List Occurrence
  | [] => []
  | (_, e) :: fields => exprOccurrences s e ++ fieldsOccurrences s fields

def armsOccurrences (s : Site) : List (Pattern × Expr) → List Occurrence
  | [] => []
  | (pattern, body) :: arms =>
    exprOccurrences (s.underPattern (patternBindings pattern)) body ++ armsOccurrences s arms

end

/-- The examples of a function stand outside the scope of its parameters. -/
def exampleOccurrences (s : Site) (ex : Example) : List Occurrence :=
  exprsOccurrences s ex.args ++ exprOccurrences s ex.expected

/-- **The occurrences of a declaration.** The types of a signature see the parameters: a predicate in one
may speak of another argument. -/
def itemOccurrences : Item → List Occurrence
  | .importDecl _ => []
  | .typeDecl td => typeOccurrences (.top td.params) td.definition
  | .fnDecl fd =>
    let inside := (Site.top fd.typeParams).bind (fd.params.map Prod.fst)
    fd.examples.flatMap (exampleOccurrences (.top fd.typeParams)) ++
      typeFieldsOccurrences inside fd.params ++ typeOccurrences inside fd.returnType ++
        blockOccurrences inside fd.body

end LexLang.Loader
