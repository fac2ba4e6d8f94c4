/-
# LexLang.Compiler.Program — the functions of a program

`compile_program` (`lex-bytecode/src/compiler/mod.rs`): the declared functions in order, then the queued
lambdas, the last one queued first, until none is left. The result lists the states that the bodies end in;
the passes over the finished code (escape and arena lowering, peepholes, moves) are not part of it.
-/
import LexLang.Compiler.Emitted

namespace LexLang.Compiler

open LexLang.Ast

/-! ## The tables -/

/-- A function's id is its place; of two functions of one name the later one is meant. -/
def functionTable : Nat → List FnDecl → (String → Option Nat) → String → Option Nat
  | _, [], names => names
  | i, decl :: decls, names => functionTable (i + 1) decls (Function.update names decl.name (some i))

/-- The module name is the part after `std.`. -/
def moduleName (reference : String) : String :=
  match reference.toList with
  | 's' :: 't' :: 'd' :: '.' :: rest => String.ofList rest
  | _ => reference

def moduleTable : List Stage → (String → Option String) → String → Option String
  | [], aliases => aliases
  | .importDecl i :: stages, aliases =>
    moduleTable stages (Function.update aliases i.importAlias (some (moduleName i.reference)))
  | _ :: stages, aliases => moduleTable stages aliases

def fnDecls (stages : List Stage) : List FnDecl :=
  stages.filterMap fun
    | .fnDecl decl => some decl
    | _ => none

def globals (stages : List Stage) : Globals where
  functionNames := functionTable 0 (fnDecls stages) fun _ => none
  moduleAliases := moduleTable stages fun _ => none

/-! ## The bodies -/

theorem queuedLambdas_compilePending (G : Globals) (pl : PendingLambda) (pending : List PendingLambda)
    (functions : Nat) : queuedLambdas (compilePending G pl pending functions).pendingLambdas <
      queuedLambdas (pl :: pending) := by
  have h := (compileExpr_emitted G pl.body
    ((paramEntries pl.fnId pl.captures.length pl.params).reverse ++ pl.scope) true
    (.start pl.fnId (pl.captures ++ ownedBy (paramEntries pl.fnId pl.captures.length pl.params)) pending
      functions)).count
  show queuedLambdas (compileExpr G pl.body _ true _).pendingLambdas < (List.map _ (pl :: pending)).sum
  rw [List.map_cons, List.sum_cons]
  refine Nat.lt_of_le_of_lt h ?_
  show queuedLambdas pending + lambdas pl.body < lambdas pl.body + 1 + queuedLambdas pending
  omega

variable (G : Globals)

/-- Compile the queued lambdas, and those they queue. -/
def compileLambdas (pending : List PendingLambda) (functions : Nat) : List FnCompiler :=
  match pending with
  | [] => []
  | pl :: rest =>
    let fc := compilePending G pl rest functions
    fc :: compileLambdas fc.pendingLambdas fc.functions
termination_by queuedLambdas pending
decreasing_by exact queuedLambdas_compilePending G pl rest functions

/-- The declared functions, then the lambdas. -/
def compileFns : List FnDecl → List PendingLambda → Nat → List FnCompiler
  | [], pending, functions => compileLambdas G pending functions
  | decl :: decls, pending, functions =>
    let fc := compileFn G ((G.functionNames decl.name).getD 0) decl pending functions
    fc :: compileFns decls fc.pendingLambdas fc.functions

/-- **The functions of a program**, or nothing where the compiler panics. -/
def compileProgram (stages : List Stage) : Option (List FnCompiler) :=
  let units := compileFns (globals stages) (fnDecls stages) [] (fnDecls stages).length
  if units.any FnCompiler.panicked then none else some units

end LexLang.Compiler
