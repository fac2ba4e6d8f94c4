/-
# LexLang.Trace.Happening — what a step of a machine is, to a tracer

The places of the dispatch loop that speak to the tracer (`lex-bytecode/src/vm/dispatch.rs`): the arms of `Call`,
`TailCall`, `CallClosure`, `Return` and `EffectCall`. `happening` says which of them a step comes to, and
`tracerCalls` what the tracer is told there. A step that comes to none of them is silent.

A call that its predicates or the native code refuse, or for which there is no room, is a call that was made: it
fails before its body.
-/
import LexLang.Machine.Step
import LexLang.Trace.Recorder

namespace LexLang.Trace

open LexLang.Machine

/-- A call, as it is shown: the id of the instruction, the function, the arguments. -/
structure CallSite where
  nodeId : String
  name : String
  args : List Value

structure EffectSite where
  nodeId : String
  kind : String
  op : String
  args : List Value

inductive Happening
  /-- `invoke` pushes a frame. -/
  | entered
  /-- `Call` or `CallClosure` pushes a frame. -/
  | invoked (c : CallSite)
  /-- The call does not come to its frame: a predicate or the native code refuses. -/
  | rejected (c : CallSite) (e : VmError)
  /-- There are too many frames. -/
  | overflowed (c : CallSite) (e : VmError)
  /-- The cache or the native code has the result. -/
  | answered (c : CallSite) (v : Value)
  | tailCalled (c : CallSite)
  | tailAnswered (c : CallSite) (v : Value)
  | returned (v : Value)
  | effectStarted (c : EffectSite)
  | effectEnded (result : Except String Value)

/-- `FrameKind`. -/
inductive FrameKind
  -- pushed by `invoke`; it is no call
  | entry
  | call
  deriving DecidableEq

/-- What the tracer is told, where `kind` is that of the innermost frame. -/
def Happening.tracerCalls (kind : FrameKind) : Happening → List TracerCall
  | .entered => []
  | .invoked c | .overflowed c _ => [.enter_call c.nodeId c.name c.args]
  | .rejected _ _ => []
  | .answered c v => [.enter_call c.nodeId c.name c.args, .exit_ok v]
  | .tailCalled c => [.exit_call_tail, .enter_call c.nodeId c.name c.args]
  | .tailAnswered c v => [.exit_call_tail, .enter_call c.nodeId c.name c.args, .exit_ok v]
  | .returned v =>
    match kind with
    | .call => [.exit_ok v]
    | .entry => []
  | .effectStarted c => [.enter_effect c.nodeId c.kind c.op c.args]
  | .effectEnded (.ok v) => [.exit_ok v]
  | .effectEnded (.error e) => [.exit_err e]

/-! ## The checks in front of a call -/

section Checks

variable (host : Host) (input : Input) (budget : Budget)

/-- As `charge`. -/
def whenCharged (f : Function) (next : Option Happening) : Option Happening :=
  if callBudgetCost f = 0 then next
  else
    match budget.noteCallBudget (callBudgetCost f) with
    | .error _ => none
    | .ok _ => next

/-- As `checked`. -/
def whenChecked (f : Function) (arg : Nat → Option Value) (refused : VmError → Option Happening)
    (next : Option Happening) : Option Happening :=
  match checkRefinements host f.name arg 0 f.refinements with
  | .ok () => next
  | .error (.err e) => refused e
  | .error .panicked => none

/-- As `hooked`. -/
def whenHooked (refused : VmError → Option Happening) (answered : Value → Option Happening)
    (declined : Option Happening) : Option Happening :=
  match input.hook with
  | none => declined
  | some answer =>
    match answer.result with
    | .error e => refused e
    | .ok (some v) => answered v
    | .ok none => declined

/-- As `enter`. -/
def whenEntered (depth : Nat) (f : Function) (args : List Value) (refused : VmError → Option Happening)
    (entered : Option Happening) : Option Happening :=
  if f.frameSize < args.length then none
  else if maxCallDepth ≤ depth then refused (.callStackOverflow maxCallDepth)
  else entered

end Checks

/-! ## The arms -/

section Arms

variable (program : Program) (host : Host) (nodeIds : Nat → Nat → String) (input : Input) (budget : Budget)
  (vm : Vm)

def callHappening (nodeId : String) (fnId arity : Nat) : Option Happening :=
  match program.functions[fnId]? with
  | none => none
  | some f =>
    if vm.memory.stack.length < arity then none
    else
      let args := (vm.memory.stack.take arity).reverse
      let c : CallSite := ⟨nodeId, f.name, args⟩
      let refused := fun e => some (.rejected c e)
      let missed := whenHooked input refused (fun v => some (.answered c v))
        (whenEntered vm.frames.length f args (fun e => some (.overflowed c e)) (some (.invoked c)))
      whenCharged budget f <| whenChecked host f (args[·]?) refused <|
        match vm.memoKey host fnId f args with
        | none => none
        | some none => missed
        | some (some key) =>
          match vm.pureMemo.lookup key with
          | some cached => some (.answered c cached)
          | none => missed

def tailCallHappening (nodeId : String) (fnId arity : Nat) : Option Happening :=
  match program.functions[fnId]? with
  | none => none
  | some f =>
    if vm.memory.stack.length < arity then none
    else
      let args := (vm.memory.stack.take arity).reverse
      let c : CallSite := ⟨nodeId, f.name, args⟩
      let refused := fun e => some (.rejected c e)
      whenCharged budget f <| whenChecked host f (args[·]?) refused <|
        whenHooked input refused (fun v => some (.tailAnswered c v))
          (if f.frameSize < args.length then none else some (.tailCalled c))

def callClosureHappening (nodeId : String) (arity : Nat) : Option Happening :=
  match vm.memory.stack[arity]? with
  | some (.closure fnId _ captures) =>
    match program.functions[fnId]? with
    | none => none
    | some f =>
      let args := captures ++ (vm.memory.stack.take arity).reverse
      let c : CallSite := ⟨nodeId, f.name, args⟩
      whenCharged budget f <|
        whenEntered vm.frames.length f args (fun e => some (.overflowed c e)) (some (.invoked c))
  | _ => none

def returnHappening : Option Happening :=
  match vm.memory.stack with
  | [] => none
  | v :: _ => some (.returned v)

def effectHappening (nodeId : String) (kindIdx opIdx arity : Nat) : Option Happening :=
  if vm.memory.stack.length < arity then none
  else
    let slab := vm.memory.arenaSlab
    let popped := (vm.memory.stack.take arity).reverse
    let args :=
      if slab.isEmpty then some popped
      else popped.mapM (materialize program slab)
    match args, program.constants[kindIdx]?, program.constants[opIdx]? with
    | some args, some (.str kind), some (.str op) => some (.effectStarted ⟨nodeId, kind, op, args⟩)
    | _, _, _ => none

/-- `invoke` tells the tracer nothing. -/
def invokeHappening (fnId : Nat) (args : List Value) : Option Happening :=
  match program.functions[fnId]? with
  | none => none
  | some f =>
    if args.length ≠ f.arity then none
    else
      whenChecked host f (fun i => some (args.getD i .unit)) (fun _ => none) <|
        whenHooked input (fun _ => none) (fun _ => none)
          (whenEntered vm.frames.length f args (fun _ => none) (some .entered))

/-- As `perform`. -/
def performHappening (frame : Frame) (frames : List Frame) (op : Op) : Option Happening :=
  let nodeId := nodeIds frame.fnId frame.pc
  let advanced := { vm with frames := { frame with pc := frame.pc + 1 } :: frames }
  match op with
  | .call fnId arity => callHappening program host input budget advanced nodeId fnId arity
  | .tailCall fnId arity => tailCallHappening program host input budget advanced nodeId fnId arity
  | .callClosure arity => callClosureHappening program budget advanced nodeId arity
  | .return => returnHappening advanced
  | .effectCall kindIdx opIdx arity => effectHappening program advanced nodeId kindIdx opIdx arity
  | _ => none

/-- As `dispatch`. -/
def dispatchHappening : Option Happening :=
  if vm.stepLimit < vm.steps then none
  else
    let vm := { vm with steps := vm.steps + 1 }
    match vm.fetch program with
    | none => none
    | some (frame, frames, op) => performHappening program host nodeIds input budget vm frame frames op

/-- **What the next step is, to a tracer.** -/
def happening : Option Happening :=
  match vm.control with
  | .run => dispatchHappening program host nodeIds input budget vm
  | .invokeClosure (.closure fnId _ captures) args => invokeHappening program host input vm fnId (captures ++ args)
  | .invoke fnId args => invokeHappening program host input vm fnId args
  | .replied result =>
    match vm.natives with
    | .effectCall :: _ => some (.effectEnded result)
    | _ => none
  | _ => none

end Arms

end LexLang.Trace
