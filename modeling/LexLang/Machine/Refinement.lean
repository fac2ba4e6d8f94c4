/-
# LexLang.Machine.Refinement — evaluating a predicate on an argument

`eval_refinement` and what it calls (`lex-bytecode/src/vm/mod.rs`). The evaluator knows the binding of the
predicate and nothing else: literals, `not`, `-`, the binary operators. What it refuses, it refuses with a
reason; a few values make the host panic instead.
-/
import LexLang.Machine.Program

namespace LexLang.Machine

open LexLang.Ast

/-! ## Errors -/

/-- A text, with the values that are printed at its end. -/
structure Message where
  text : String
  values : List Value

instance : Coe String Message := ⟨fun text => ⟨text, []⟩⟩

inductive VmError
  | panic (message : Message)
  | typeMismatch (message : Message)
  | stackUnderflow
  | effect (message : String)
  | processExit (code : Int)
  | callStackOverflow (depth : Nat)
  | refinementFailed (fnName : String) (paramIndex : Nat) (binding : String) (reason : Message)
  | divByZero (op : String)

/-- How a computation fails: with an error, or by a panic of the host. -/
inductive Fault (ε : Type)
  | err (error : ε)
  | panicked

/-! ## The host -/

/-- What the machine asks the host's libraries for. -/
structure Host where
  /-- `str::parse::<f64>`. -/
  parseFloat : String → Option Float
  /-- The digest of a call's arguments, unless one of them is a handle. -/
  hashCallArgs : List Value → Option Nat
  /-- `memo_args_exceed`: the arguments are too large to be hashed. -/
  memoArgsExceed : List Value → Bool
  /-- `%` of floats. -/
  floatMod : Float → Float → Float
  /-- The id of a record's shape that was not compiled. -/
  dynamicShape : List String → Nat
  /-- `{:?}`. -/
  debug : Value → String
  debugError : VmError → String

abbrev EvalRefinement := Except (Fault Message)

def refuse {α : Type} (text : String) (values : List Value) : EvalRefinement α :=
  .error (.err ⟨text, values⟩)

/-- Where the host panics unless there is a value. -/
def orPanic {α ε : Type} : Option α → Except (Fault ε) α
  | some a => .ok a
  | none => .error .panicked

/-! ## Operators -/

/-- `i64::MIN / -1` does not fit. -/
def overflows (a b : Int64) : Bool := a == Int64.minValue && b == -1

/-- `apply_refinement_binop`. -/
def applyRefinementBinop (op : String) : Value → Value → EvalRefinement Value
  | .int a, .int b =>
    match op with
    | "+" => .ok (.int (a + b))
    | "-" => .ok (.int (a - b))
    | "*" => .ok (.int (a * b))
    | "/" =>
      if b = 0 then refuse "unsupported binop / on " [.int a, .int b]
      else if overflows a b then .error .panicked
      else .ok (.int (a / b))
    | "%" =>
      if b = 0 then refuse "unsupported binop % on " [.int a, .int b]
      else if overflows a b then .error .panicked
      else .ok (.int (a % b))
    | "==" => .ok (.bool (a == b))
    | "!=" => .ok (.bool (a != b))
    | "<" => .ok (.bool (a < b))
    | "<=" => .ok (.bool (a ≤ b))
    | ">" => .ok (.bool (b < a))
    | ">=" => .ok (.bool (b ≤ a))
    | _ => refuse ("unsupported binop " ++ op ++ " on ") [.int a, .int b]
  | .float a, .float b =>
    match op with
    | "+" => .ok (.float (a + b))
    | "-" => .ok (.float (a - b))
    | "*" => .ok (.float (a * b))
    | "/" => .ok (.float (a / b))
    | "==" => .ok (.bool (a == b))
    | "!=" => .ok (.bool (a != b))
    | "<" => .ok (.bool (a < b))
    | "<=" => .ok (.bool (a ≤ b))
    | ">" => .ok (.bool (b < a))
    | ">=" => .ok (.bool (b ≤ a))
    | _ => refuse ("unsupported binop " ++ op ++ " on ") [.float a, .float b]
  | a, b =>
    match op with
    | "==" => .bool <$> orPanic (a.eq b)
    | "!=" => (fun same => .bool !same) <$> orPanic (a.eq b)
    | _ => refuse ("unsupported binop " ++ op ++ " on ") [a, b]

def applyRefinementUnop (op : String) (v : Value) : EvalRefinement Value :=
  match op, v with
  | "not", .bool b => .ok (.bool !b)
  | "-", .int n => .ok (.int (-n))
  | "-", .float x => .ok (.float (-x))
  | _, _ => refuse ("unsupported unary " ++ op ++ " on ") [v]

/-! ## The evaluator -/

def litValue (host : Host) : CLit → Value
  | .int value => .int (.ofInt value)
  | .float value => .float ((host.parseFloat value).getD 0)
  | .bool value => .bool value
  | .str value => .str value
  -- the hexadecimal text
  | .bytes value => .str value
  | .unit => .unit

def expectBool (op : String) : Value → EvalRefinement Bool
  | .bool b => .ok b
  | v => refuse (op ++ " on non-bool: ") [v]

/-- `eval_refinement_inner`. -/
def evalRefinementInner (host : Host) (binding : String) (arg : Value) : CExpr → EvalRefinement Value
  | .literal value => .ok (litValue host value)
  | .var name =>
    if name = binding then .ok arg
    else refuse ("predicate references free var " ++ name) []
  | .unaryOp op expr => do applyRefinementUnop op (← evalRefinementInner host binding arg expr)
  | .binOp op lhs rhs =>
    if op = "and" ∨ op = "or" then do
      let l ← expectBool op (← evalRefinementInner host binding arg lhs)
      -- the right side is not looked at where the left one decides
      if l = (op == "or") then .ok (.bool l)
      else .bool <$> (do expectBool op (← evalRefinementInner host binding arg rhs))
    else do
      let l ← evalRefinementInner host binding arg lhs
      let r ← evalRefinementInner host binding arg rhs
      applyRefinementBinop op l r
  | _ => refuse "unsupported predicate node" []

/-- `eval_refinement`. -/
def evalRefinement (host : Host) (r : Refinement) (arg : Value) : EvalRefinement Bool := do
  match ← evalRefinementInner host r.binding arg r.predicate with
  | .bool b => .ok b
  | other => refuse "predicate didn't reduce to a Bool, got " [other]

/-- **The argument satisfies the predicate.** -/
def Refinement.Holds (host : Host) (r : Refinement) (arg : Value) : Prop :=
  evalRefinement host r arg = .ok true

end LexLang.Machine
