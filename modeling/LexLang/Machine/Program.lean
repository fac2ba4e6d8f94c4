/-
# LexLang.Machine.Program — compiled programs

`Op`, `Function` and `Program` (`lex-bytecode/src/op.rs`, `program.rs`). Operands are indices, as in the
source. `refinements` is the part of `compile_program` that decides what the machine will check of a
function's parameters, and `call_budget_cost` (`vm/mod.rs`) what a call of it costs.
-/
import LexLang.Machine.Value

namespace LexLang.Machine

open LexLang.Ast

/-! ## Instructions -/

inductive Op
  | pushConst (i : Nat)
  | pop
  | dup
  | loadLocal (i : Nat)
  | storeLocal (i : Nat)
  | takeLocal (i : Nat)
  | makeRecord (shapeIdx fieldCount : Nat)
  | allocStackRecord (shapeIdx fieldCount : Nat)
  | allocArenaRecord (shapeIdx fieldCount : Nat)
  | makeTuple (arity : Nat)
  | allocStackTuple (arity : Nat)
  | allocArenaTuple (arity : Nat)
  | makeList (count : Nat)
  | makeVariant (nameIdx arity : Nat)
  | getField (nameIdx siteIdx : Nat)
  | getElem (i : Nat)
  | testVariant (nameIdx : Nat)
  | getVariant (nameIdx : Nat)
  | getVariantArg (i : Nat)
  | getListLen
  | getListElem (i : Nat)
  | listAppend
  | getListElemDyn
  | jump (off : Int)
  | jumpIf (off : Int)
  | jumpIfNot (off : Int)
  | call (fnId arity : Nat)
  | tailCall (fnId arity : Nat)
  | makeClosure (fnId captureCount : Nat)
  | callClosure (arity : Nat)
  | sortByKey
  | parallelMap
  | listMap
  | listFilter
  | listFold
  | effectCall (kindIdx opIdx arity : Nat)
  | return
  | panic (i : Nat)
  | intAdd | intSub | intMul | intDiv | intMod | intNeg
  | intEq | intLt | intLe
  | floatAdd | floatSub | floatMul | floatDiv | floatNeg
  | floatEq | floatLt | floatLe
  | numAdd | numSub | numMul | numDiv | numMod | numNeg
  | numEq | numLt | numLe
  | boolAnd | boolOr | boolNot
  | strConcat | strLen | strEq
  | bytesLen | bytesEq
  -- superinstructions
  | loadLocalAddIntConst (localIdx immConstIdx : Nat)
  | loadLocalAddIntConstStoreLocal (src immConstIdx dest : Nat)
  | loadLocalAddLocal (lhsIdx rhsIdx : Nat)
  | loadLocalSubLocal (lhsIdx rhsIdx : Nat)
  | loadLocalMulLocal (lhsIdx rhsIdx : Nat)
  | loadLocalEqIntConstJumpIfNot (localIdx immConstIdx : Nat) (jumpOffset : Int)
  | loadLocalStoreEqIntConstJumpIfNot (src dst immConstIdx : Nat) (jumpOffset : Int)
  | loadLocalGetFieldAdd (localIdx nameIdx siteIdx : Nat)
  | loadLocalGetFieldSub (localIdx nameIdx siteIdx : Nat)
  | loadLocalGetFieldMul (localIdx nameIdx siteIdx : Nat)
  | loadLocalGetField (localIdx nameIdx siteIdx : Nat)

/-! ## Functions -/

/-- A predicate that an argument has to satisfy. -/
structure Refinement where
  binding : String
  predicate : CExpr

structure Function where
  name : String
  arity : Nat
  localsCount : Nat
  code : List Op
  effects : List Effect
  bodyHash : BodyHash
  refinements : List (Option Refinement)
  fieldIcSites : Nat

structure Program where
  constants : List Const
  functions : List Function
  functionNames : String → Option Nat
  recordShapes : List (List Nat)

def Program.lookup (program : Program) (name : String) : Option Nat := program.functionNames name

/-- How many slots a frame of the function has. -/
def Function.frameSize (f : Function) : Nat := max f.localsCount f.arity

/-! ## Budgets -/

/-- The largest `u64`. -/
def u64Max : Nat := 2 ^ 64 - 1

/-- What one effect of a signature costs: `[budget(n)]` costs `n`, unless it is negative. -/
def budgetOf (e : Effect) : Nat :=
  match e.name, e.arg with
  | "budget", some (.int n) => n.toNat
  | _, _ => 0

/-- What a call of the function costs. The sum saturates. -/
def callBudgetCost (f : Function) : Nat :=
  f.effects.foldl (fun total e => min (total + budgetOf e) u64Max) 0

/-- What the signature declares. -/
def Function.declaredBudget (f : Function) : Nat := (f.effects.map budgetOf).sum

/-! ## Which predicates are stored -/

/-- The predicate that stands in a parameter's type. -/
def TypeExpr.refinement? : TypeExpr → Option Refinement
  | .refined _ binding predicate => some ⟨binding, predicate⟩
  | _ => none

/-- The predicates of a declared function. -/
def declRefinements (decl : FnDecl) : List (Option Refinement) :=
  decl.params.map fun param => TypeExpr.refinement? param.2

/-- A lambda's function is stored without any. -/
def lambdaRefinements : List (Option Refinement) := []

end LexLang.Machine
