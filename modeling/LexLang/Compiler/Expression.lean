/-
# LexLang.Compiler.Expression — from a canonical body to code

`compile_expr` and what it calls (`lex-bytecode/src/compiler/mod.rs`), and the state that the body of a
function or of a queued lambda is compiled from. `scope` is the lexical environment: it is handed down the
recursion as the scoping rules of the language say, and is written to the notes only.
-/
import LexLang.Compiler.HigherOrder

namespace LexLang.Compiler

open LexLang.Ast

/-! ## Calls -/

/-- The ways a call is compiled, by its callee. -/
inductive CallForm
  | module (name module op : String)
  | function (name : String) (fnId : Nat)
  | todo (name : String)
  | named (name : String)
  | value

/-- **How a callee is looked up**: as a module, as a function, as `todo`, and only then as a local. -/
def Globals.callForm (G : Globals) : CExpr → CallForm
  | .fieldAccess (.var name) field =>
    match G.moduleAliases name with
    | some module => .module name module field
    | none => .value
  | .var name =>
    match G.functionNames name with
    | some fnId => .function name fnId
    | none => if name = "todo" then .todo name else .named name
  | _ => .value

/-- A callee that is a variable: the closure in a local, if there is one. -/
def FnCompiler.compileCallee (G : Globals) (scope : Scope) (name : String) (fc : FnCompiler) : FnCompiler :=
  match fc.locals name with
  | some l => (fc.note name (scope.callee G name) l.owner.denotes).emit (.loadLocal l.slot)
  | none => fc.compileVar G scope name

/-- The end of an arm: jump to the end of the match; where the test fails the code goes on here, and the
names and the slots are as they were before the arm. -/
def FnCompiler.endArm (fc before : FnCompiler) (fails : List Nat) : FnCompiler :=
  { (fc.emit (.jump 0)).patchAll fails with locals := before.locals, nextLocal := before.nextLocal }

/-! ## Expressions -/

variable (G : Globals)

mutual

/-- The code that leaves the value of an expression on the stack. -/
def compileExpr : CExpr → Scope → Bool → FnCompiler → FnCompiler
  | .literal value, _, _, fc => fc.emit (.pushConst value)
  | .var name, scope, _, fc => fc.compileVar G scope name
  | .letE name _ value body, scope, tail, fc =>
    let fc := compileExpr value scope false fc
    -- the name keeps its slot after the body
    compileExpr body ((name, fc.binder) :: scope) tail (fc.bind name (.binder fc.binder))
  | .block statements result, scope, tail, fc =>
    compileExpr result scope tail (compileExprs [.pop] statements scope fc)
  | .call callee args, scope, tail, fc =>
    match G.callForm callee with
    | .module name module op =>
      let fc := fc.note name (scope.qualifier G name) (.module module)
      match higherOrder (module, op) with
      | some template => compileInline template args scope [] fc
      | none => (compileExprs [] args scope fc).emit (.effectCall module op args.length)
    | .function name fnId =>
      let fc := (compileExprs [] args scope fc).note name (scope.callee G name) (.function fnId)
      fc.emit (if tail then .tailCall fnId args.length else .call fnId args.length)
    | .todo name => (fc.note name (scope.callee G name) .todo).emit (.panic "todo() reached")
    | .named name =>
      (compileExprs [] args scope (fc.compileCallee G scope name)).emit (.callClosure args.length)
    | .value =>
      (compileExprs [] args scope (compileExpr callee scope false fc)).emit (.callClosure args.length)
  | .constructor name args, scope, _, fc =>
    (compileExprs [] args scope fc).emit (.makeVariant name args.length)
  | .matchE scrutinee arms, scope, tail, fc =>
    let fc := compileExpr scrutinee scope false fc
    let (fc, ends) := compileArms fc.nextLocal arms scope tail (fc.bind "__scrut" .temporary) []
    (fc.emit (.panic "non-exhaustive match")).patchAll ends
  | .recordLit fields, scope, _, fc =>
    (compileFields fields scope fc).emit (.makeRecord (fields.map Prod.fst))
  | .tupleLit items, scope, _, fc => (compileExprs [] items scope fc).emit (.makeTuple items.length)
  | .listLit items, scope, _, fc => (compileExprs [] items scope fc).emit (.makeList items.length)
  | .fieldAccess value field, scope, _, fc => (compileExpr value scope false fc).emit (.getField field)
  | .binOp op lhs rhs, scope, _, fc =>
    (compileExpr rhs scope false (compileExpr lhs scope false fc)).emitBinOp op
  | .unaryOp op expr, scope, _, fc => (compileExpr expr scope false fc).emitUnaryOp op
  | .lambda params _ _ _ body, scope, _, fc => fc.compileLambda scope (params.map Prod.fst) body
  | .returnE value, scope, _, fc => (compileExpr value scope true fc).emit .return

/-- One after the other, each followed by `after`. -/
def compileExprs (after : List Op) : List CExpr → Scope → FnCompiler → FnCompiler
  | [], _, fc => fc
  | e :: es, scope, fc => compileExprs after es scope ((compileExpr e scope false fc).emitAll after)

def compileFields : List (String × CExpr) → Scope → FnCompiler → FnCompiler
  | [], _, fc => fc
  | (_, e) :: fields, scope, fc => compileFields fields scope (compileExpr e scope false fc)

/-- The arms, and the jumps to the end of the match. -/
def compileArms (scrut : Nat) : List (Pattern × CExpr) → Scope → Bool → FnCompiler → List Nat →
    FnCompiler × List Nat
  | [], _, _, fc, ends => (fc, ends)
  | (p, body) :: arms, scope, tail, fc, ends =>
    let t := compilePatternTest p ⟨fc.emit (.loadLocal scrut), [], []⟩
    let done := compileExpr body (t.bindings ++ scope) tail t.fc
    compileArms scrut arms scope tail (done.endArm fc t.fails) (ends ++ [done.pc])

/-- The arguments that a template asks for, each followed by its steps. -/
def compileInline : Template → List CExpr → Scope → List Nat → FnCompiler → FnCompiler
  | [], _, _, _, fc => fc
  | _ :: _, [], _, _, fc => fc.panic
  | steps :: template, e :: es, scope, slots, fc =>
    let s := (Inlining.mk (compileExpr e scope false fc) slots).steps steps
    compileInline template es scope s.slots s.fc

end

/-! ## Functions -/

/-- The map of names on entry, later entries over earlier ones. -/
def entryLocals : Nat → List (String × Owner) → (String → Option Local) → String → Option Local
  | _, [], locals => locals
  | i, (name, owner) :: entries, locals =>
    entryLocals (i + 1) entries (Function.update locals name (some ⟨i, owner⟩))

/-- The parameters as binders, from slot `i` on. -/
def paramEntries (fnId : Nat) : Nat → List String → List (String × Binder)
  | _, [] => []
  | i, name :: params => (name, ⟨fnId, .entry i⟩) :: paramEntries fnId (i + 1) params

def FnCompiler.start (fnId : Nat) (entries : List (String × Owner)) (pending : List PendingLambda)
    (functions : Nat) : FnCompiler where
  fnId := fnId
  entries := entries
  code := []
  locals := entryLocals 0 entries fun _ => none
  nextLocal := entries.length
  peakLocal := entries.length
  refs := []
  pendingLambdas := pending
  functions := functions
  panicked := false

def ownedBy (params : List (String × Binder)) : List (String × Owner) :=
  params.map fun p => (p.1, .binder p.2)

/-- The body of a function in its lexical environment. -/
def compileBody (body : CExpr) (scope : Scope) (fc : FnCompiler) : FnCompiler :=
  (compileExpr G body scope true fc).emit .return

/-- A declared function: its frame holds the parameters. -/
def compileFn (fnId : Nat) (decl : FnDecl) (pending : List PendingLambda) (functions : Nat) : FnCompiler :=
  let params := paramEntries fnId 0 (decl.params.map Prod.fst)
  compileBody G decl.body params.reverse (.start fnId (ownedBy params) pending functions)

/-- A lambda: its frame holds the captures, then the parameters. -/
def compilePending (pl : PendingLambda) (pending : List PendingLambda) (functions : Nat) : FnCompiler :=
  let params := paramEntries pl.fnId pl.captures.length pl.params
  compileBody G pl.body (params.reverse ++ pl.scope)
    (.start pl.fnId (pl.captures ++ ownedBy params) pending functions)

end LexLang.Compiler
