/-
# LexLang.Compiler.Emit — the code of one function, as it is emitted

The state that `FnCompiler` (`lex-bytecode/src/compiler/mod.rs`) goes through while it emits one function:
the code so far, the map from names to slots, the next free slot, the lambdas that wait to be compiled.
Operands that are indices of the constant pool are the constants themselves; the typed forms of an
arithmetic instruction are written as the polymorphic one they decode to.

Beside what the source keeps, every entry of the map says which binder its slot was handed out for,
and every name that is resolved leaves a `Ref`. Nothing that emits code reads either.
-/
import LexLang.Ast.Canonical

namespace LexLang.Compiler

open LexLang.Ast

/-! ## Binders -/

/-- Where a binder's value gets into its frame: by being there when the function is entered, or by the
store at a position of the code. -/
inductive Site
  | entry (slot : Nat)
  | store (pc : Nat)
  deriving DecidableEq

/-- A parameter, a `let` or a variable of a pattern. -/
structure Binder where
  fnId : Nat
  site : Site
  deriving DecidableEq

/-- What a slot was handed out for. -/
inductive Owner
  | binder (b : Binder)
  | temporary
  deriving DecidableEq

/-- **The lexical environment**: the binders around an expression, innermost first. -/
abbrev Scope := List (String × Binder)

/-- What a name can stand for. -/
inductive Denotation
  | binder (b : Binder)
  | temporary
  | function (fnId : Nat)
  | todo
  | module (name : String)
  deriving DecidableEq

def Owner.denotes : Owner → Denotation
  | .binder b => .binder b
  | .temporary => .temporary

/-- The tables that every function of a program is compiled with. -/
structure Globals where
  functionNames : String → Option Nat
  moduleAliases : String → Option String

/-! By lexical scope a local comes first, whatever the place the name stands in. -/

def Scope.local? (scope : Scope) (name : String) : Option Denotation :=
  (scope.lookup name).map .binder

/-- A name that is used as a value. -/
def Scope.value (scope : Scope) (G : Globals) (name : String) : Option Denotation :=
  (scope.local? name).or ((G.functionNames name).map .function)

/-- A name that is called. -/
def Scope.callee (scope : Scope) (G : Globals) (name : String) : Option Denotation :=
  (scope.value G name).or (if name = "todo" then some .todo else none)

/-- A name in front of the dot of a call. -/
def Scope.qualifier (scope : Scope) (G : Globals) (name : String) : Option Denotation :=
  (scope.local? name).or ((G.moduleAliases name).map .module)

/-! ## Instructions -/

inductive Op
  | pushConst (value : CLit)
  | pop
  | dup
  | loadLocal (slot : Nat)
  | storeLocal (slot : Nat)
  | makeRecord (fields : List String)
  | makeTuple (arity : Nat)
  | makeList (count : Nat)
  | makeVariant (name : String) (arity : Nat)
  | getField (name : String)
  | getElem (i : Nat)
  | testVariant (name : String)
  | getVariantArg (i : Nat)
  | getListLen
  | getListElemDyn
  | listAppend
  | jump (off : Int)
  | jumpIf (off : Int)
  | jumpIfNot (off : Int)
  | makeClosure (fnId captureCount : Nat)
  -- `MakeClosure` of a function whose code is fixed, such as `__flow_retry`
  | makeTrampoline (name : String) (captureCount : Nat)
  | call (fnId arity : Nat)
  | tailCall (fnId arity : Nat)
  | callClosure (arity : Nat)
  | effectCall (kind op : String) (arity : Nat)
  | return
  | panic (msg : String)
  | numAdd | numSub | numMul | numDiv | numMod | numNeg | numEq | numLt | numLe
  | boolAnd | boolOr | boolNot | strEq | bytesEq
  | listMap | parallelMap | sortByKey | listFilter | listFold
  deriving DecidableEq

/-! ## The state -/

/-- An entry of the map from names to slots. -/
structure Local where
  slot : Nat
  owner : Owner
  deriving DecidableEq

/-- A name that was resolved at a position of the code. -/
structure Ref where
  pc : Nat
  name : String
  -- `none` where no binder, function or module of that name is in scope
  lexical : Option Denotation
  denotes : Denotation
  deriving DecidableEq

/-- A lambda that waits to be compiled, with what its captured locals were handed out for. -/
structure PendingLambda where
  fnId : Nat
  captures : List (String × Owner)
  params : List String
  body : CExpr
  -- the lexical environment of the lambda
  scope : Scope

structure FnCompiler where
  fnId : Nat
  -- what the frame holds on entry: the captures of a lambda, then the parameters
  entries : List (String × Owner)
  code : List Op
  locals : String → Option Local
  nextLocal : Nat
  peakLocal : Nat
  refs : List Ref
  -- the last one pushed comes first
  pendingLambdas : List PendingLambda
  -- the length of the table of functions
  functions : Nat
  -- the source panics: nothing comes of the compilation
  panicked : Bool

namespace FnCompiler

/-- The position of the next instruction. -/
def pc (fc : FnCompiler) : Nat := fc.code.length

def emit (op : Op) (fc : FnCompiler) : FnCompiler := { fc with code := fc.code ++ [op] }

def emitAll (ops : List Op) (fc : FnCompiler) : FnCompiler := { fc with code := fc.code ++ ops }

/-- The slot handed out is `fc.nextLocal`. -/
def allocLocal (name : String) (owner : Owner) (fc : FnCompiler) : FnCompiler :=
  { fc with
    locals := Function.update fc.locals name (some ⟨fc.nextLocal, owner⟩)
    nextLocal := fc.nextLocal + 1
    peakLocal := max fc.peakLocal (fc.nextLocal + 1) }

/-- The binder whose value the next instruction stores. -/
def binder (fc : FnCompiler) : Binder := ⟨fc.fnId, .store fc.pc⟩

/-- Hand out a slot and store the top of the stack in it. -/
def bind (name : String) (owner : Owner) (fc : FnCompiler) : FnCompiler :=
  (fc.allocLocal name owner).emit (.storeLocal fc.nextLocal)

def note (name : String) (lexical : Option Denotation) (denotes : Denotation) (fc : FnCompiler) :
    FnCompiler :=
  { fc with refs := ⟨fc.pc, name, lexical, denotes⟩ :: fc.refs }

def panic (fc : FnCompiler) : FnCompiler := { fc with panicked := true }

end FnCompiler

/-! ## Patching jumps -/

/-- The jump at `j`, aimed at `target`. -/
def Op.aim (j target : Nat) : Op → Op
  | .jumpIfNot _ => .jumpIfNot (target - (j + 1))
  | .jump _ => .jump (target - (j + 1))
  | op => op

/-- Aim the jumps at the given positions at the next instruction. -/
def FnCompiler.patchAll (fc : FnCompiler) (jumps : List Nat) : FnCompiler :=
  { fc with code := fc.code.mapIdx fun j op => if j ∈ jumps then op.aim j fc.pc else op }

/-! ## Variables -/

/-- A name used as a value: a local, or else a function, made into a closure without captures. -/
def FnCompiler.compileVar (G : Globals) (scope : Scope) (name : String) (fc : FnCompiler) : FnCompiler :=
  match fc.locals name with
  | some l => (fc.note name (scope.value G name) l.owner.denotes).emit (.loadLocal l.slot)
  | none =>
    match G.functionNames name with
    | some fnId => (fc.note name (scope.value G name) (.function fnId)).emit (.makeClosure fnId 0)
    | none => fc.panic

/-! ## Operators -/

def FnCompiler.emitSwapTop2 (fc : FnCompiler) : FnCompiler :=
  let a := fc.nextLocal
  let b := fc.nextLocal + 1
  ((fc.allocLocal "__swap_a" .temporary).allocLocal "__swap_b" .temporary).emitAll
    [.storeLocal b, .storeLocal a, .loadLocal b, .loadLocal a]

/-- The instructions of a binary operator, once both operands are on the stack. -/
def FnCompiler.emitBinOp (op : String) (fc : FnCompiler) : FnCompiler :=
  match op with
  | "+" => fc.emit .numAdd
  | "-" => fc.emit .numSub
  | "*" => fc.emit .numMul
  | "/" => fc.emit .numDiv
  | "%" => fc.emit .numMod
  | "==" => fc.emit .numEq
  | "!=" => (fc.emit .numEq).emit .boolNot
  | "<" => fc.emit .numLt
  | "<=" => fc.emit .numLe
  | ">" => fc.emitSwapTop2.emit .numLt
  | ">=" => fc.emitSwapTop2.emit .numLe
  | "and" => fc.emit .boolAnd
  | "or" => fc.emit .boolOr
  | _ => fc.panic

def FnCompiler.emitUnaryOp (op : String) (fc : FnCompiler) : FnCompiler :=
  match op with
  | "-" => fc.emit .numNeg
  | "not" => fc.emit .boolNot
  | _ => fc.panic

/-! ## Patterns -/

/-- The jumps to take when the test fails, and the variables bound so far, innermost first. -/
structure PatternTest where
  fc : FnCompiler
  fails : List Nat
  bindings : Scope

/-- The instruction that compares with a literal. -/
def litEq : CLit → Op
  | .str _ => .strEq
  | .bytes _ => .bytesEq
  | _ => .numEq

namespace PatternTest

def emit (op : Op) (t : PatternTest) : PatternTest := { t with fc := t.fc.emit op }

/-- A variable of the pattern. -/
def bindVar (name : String) (t : PatternTest) : PatternTest where
  fc := t.fc.bind name (.binder t.fc.binder)
  fails := t.fails
  bindings := (name, t.fc.binder) :: t.bindings

/-- A slot for a part of the scrutinee. -/
def bindPart (name : String) (t : PatternTest) : PatternTest :=
  { t with fc := t.fc.bind name .temporary }

def testLit (value : CLit) (t : PatternTest) : PatternTest where
  fc := t.fc.emitAll [.pushConst value, litEq value, .jumpIfNot 0]
  fails := t.fails ++ [t.fc.pc + 2]
  bindings := t.bindings

/-- Branch on success; on failure drop the copy of the scrutinee first. -/
def testVariant (name : String) (t : PatternTest) : PatternTest where
  fc := t.fc.emitAll [.dup, .testVariant name, .jumpIf 2, .pop, .jump 0]
  fails := t.fails ++ [t.fc.pc + 4]
  bindings := t.bindings

end PatternTest

mutual

def compilePatternTest : Pattern → PatternTest → PatternTest
  | .pWild, t => t.emit .pop
  | .pVar name, t => t.bindVar name
  | .pLiteral value, t => t.testLit value
  | .pConstructor name [], t => (t.testVariant name).emit .pop
  | .pConstructor name [arg], t => compilePatternTest arg ((t.testVariant name).emit (.getVariantArg 0))
  | .pConstructor name args, t =>
    let t := t.testVariant name
    compileItemTests .getVariantArg t.fc.nextLocal 0 args (t.bindPart "__variant")
  | .pRecord fields, t => compileFieldTests t.fc.nextLocal fields (t.bindPart "__record")
  | .pTuple items, t => compileItemTests .getElem t.fc.nextLocal 0 items (t.bindPart "__tuple")

/-- Test the parts from the `i`-th on of what `slot` holds. -/
def compileItemTests (part : Nat → Op) (slot : Nat) : Nat → List Pattern → PatternTest → PatternTest
  | _, [], t => t
  | i, p :: ps, t =>
    compileItemTests part slot (i + 1) ps
      (compilePatternTest p ((t.emit (.loadLocal slot)).emit (part i)))

def compileFieldTests (slot : Nat) : List (String × Pattern) → PatternTest → PatternTest
  | [], t => t
  | (name, p) :: fields, t =>
    compileFieldTests slot fields
      (compilePatternTest p ((t.emit (.loadLocal slot)).emit (.getField name)))

end

/-! ## Free variables -/

mutual

def patternBinders : Pattern → List String
  | .pWild => []
  | .pLiteral _ => []
  | .pVar name => [name]
  | .pConstructor _ args => patternsBinders args
  | .pRecord fields => patternFieldsBinders fields
  | .pTuple items => patternsBinders items

def patternsBinders : List Pattern → List String
  | [] => []
  | p :: ps => patternBinders p ++ patternsBinders ps

def patternFieldsBinders : List (String × Pattern) → List String
  | [] => []
  | (_, p) :: fields => patternBinders p ++ patternFieldsBinders fields

end

mutual

/-- The free variables, added at the end of `out` in the order they are met. -/
def freeVars : CExpr → List String → List String → List String
  | .literal _, _, out => out
  | .var name, bound, out => if name ∈ bound ∨ name ∈ out then out else out ++ [name]
  | .call callee args, bound, out => freeVarsAll args bound (freeVars callee bound out)
  | .letE name _ value body, bound, out => freeVars body (name :: bound) (freeVars value bound out)
  | .matchE scrutinee arms, bound, out => freeVarsArms arms bound (freeVars scrutinee bound out)
  | .block statements result, bound, out => freeVars result bound (freeVarsAll statements bound out)
  | .constructor _ args, bound, out => freeVarsAll args bound out
  | .recordLit fields, bound, out => freeVarsFields fields bound out
  | .tupleLit items, bound, out => freeVarsAll items bound out
  | .listLit items, bound, out => freeVarsAll items bound out
  | .fieldAccess value _, bound, out => freeVars value bound out
  | .lambda params _ _ _ body, bound, out => freeVars body (params.map Prod.fst ++ bound) out
  | .binOp _ lhs rhs, bound, out => freeVars rhs bound (freeVars lhs bound out)
  | .unaryOp _ expr, bound, out => freeVars expr bound out
  | .returnE value, bound, out => freeVars value bound out

def freeVarsAll : List CExpr → List String → List String → List String
  | [], _, out => out
  | e :: es, bound, out => freeVarsAll es bound (freeVars e bound out)

def freeVarsFields : List (String × CExpr) → List String → List String → List String
  | [], _, out => out
  | (_, e) :: fields, bound, out => freeVarsFields fields bound (freeVars e bound out)

def freeVarsArms : List (Pattern × CExpr) → List String → List String → List String
  | [], _, out => out
  | (p, body) :: arms, bound, out =>
    freeVarsArms arms bound (freeVars body (patternBinders p ++ bound) out)

end

/-! ## Lambdas -/

/-- The free variables of a lambda that are locals where it stands, each with its entry of the map. -/
def FnCompiler.captures (params : List String) (body : CExpr) (fc : FnCompiler) : List (String × Local) :=
  (freeVars body params []).filterMap fun name => (fc.locals name).map (name, ·)

/-- Load the captures, make the closure, and queue the body. -/
def FnCompiler.compileLambda (scope : Scope) (params : List String) (body : CExpr) (fc : FnCompiler) :
    FnCompiler :=
  let captures := fc.captures params body
  let fnId := fc.functions
  { fc.emitAll (captures.map (fun c => .loadLocal c.2.slot) ++ [.makeClosure fnId captures.length]) with
    functions := fc.functions + 1
    pendingLambdas :=
      { fnId, captures := captures.map fun c => (c.1, c.2.owner), params, body, scope }
        :: fc.pendingLambdas }

/-! ## Literals -/

/-- The constant that `compile_lit` makes of a literal. -/
def CLit.encoded : CLit → CLit
  | .bytes _ => .bytes ""
  | value => value

end LexLang.Compiler
