/-
# LexLang.Trace.Session — recording machines

A recorder's handle is given to one machine after another (`Handle`, `lex-trace/src/recorder.rs`). A machine runs
what its host calls, and may be called again when it has come back.

`Session.made` is what was done, apart from the recorder: every call and effect that was started, in order, with
the number of calls and effects it was made inside of, and with its result once there is one. What is under way
is read off the machine's own stacks (`underway`): its frames, and the effects among its natives.
-/
import LexLang.Machine.Nested
import LexLang.Trace.Happening

namespace LexLang.Trace

open LexLang.Machine

/-! ## What is under way -/

/-- **The calls and effects under way**, the innermost first: for each frame where its call is listed, if it has
one, and for each effect. The frames of a loop are those above its base. -/
def underway : List Native → List (Option Nat) → List Nat → List Nat
  | [], _, _ => []
  | .runTo base :: natives, calls, effects =>
    (calls.take (calls.length - base)).filterMap id ++ underway natives (calls.drop (calls.length - base)) effects
  | .effectCall :: natives, calls, effects => effects.head?.toList ++ underway natives calls effects.tail
  | _ :: natives, calls, effects => underway natives calls effects

/-- How an error leaves a loop: the loop's base, and the error. -/
def escape (vm vm' : Vm) : Option (Nat × VmError) :=
  match vm'.control, bases vm.natives with
  | .finished (.error e), base :: outer =>
    if (bases vm'.natives).length = outer.length then some (base, e) else none
  | _, _ => none

/-! ## Machines that are recorded -/

/-- A machine with its program. -/
structure Runner where
  program : Program
  -- the id of the node at an instruction
  nodeIds : Nat → Nat → String
  vm : Vm
  -- `trace_kind`, for each frame
  kinds : List FrameKind
  -- where the call of each frame is listed
  calls : List (Option Nat)
  -- where the effects under way are listed
  effects : List Nat

/-- `Vm::with_handler`. -/
def Runner.new (program : Program) (nodeIds : Nat → Nat → String) (stepLimit : Nat) : Runner :=
  ⟨program, nodeIds, Vm.new stepLimit, [], [], []⟩

/-- The machine is not running. -/
structure Runner.AtRest (runner : Runner) : Prop where
  natives : runner.vm.natives = []
  control : runner.vm.control = .idle ∨ ∃ result, runner.vm.control = .finished result

/-- A recorder, the machine that tells it what it does, and the others. -/
structure Session where
  recorder : RecorderState
  -- what was done: how deep, and its node
  made : List (Nat × TraceNode)
  runner : Runner
  waiting : List Runner

namespace Session

/-- `Recorder::new`, given to a machine. -/
def new (overrides : String → Option Json.Value) (runner : Runner) : Session :=
  ⟨RecorderState.new.with_overrides overrides, [], runner, []⟩

variable (shown : Shown) (host : Host) (session : Session) (input : Input) (budget : Budget)

def underway : List Nat := Trace.underway session.runner.vm.natives session.runner.calls session.runner.effects

/-- What the next step is. -/
def happening : Option Happening :=
  Trace.happening session.runner.program host session.runner.nodeIds input budget session.runner.vm

/-! ## What was done -/

def callNode (c : CallSite) : TraceNode := ⟨c.nodeId, .call, c.name, values_to_json shown c.args, none, none⟩

def effectNode (c : EffectSite) : TraceNode :=
  ⟨c.nodeId, .effect, c.kind ++ "." ++ c.op, values_to_json shown c.args, none, none⟩

def setOutput (output : Json.Value) (node : TraceNode) : TraceNode := { node with output := some output }

def setError (error : String) (node : TraceNode) : TraceNode := { node with error := some error }

/-- List what is started now. -/
def start (node : TraceNode) : Session :=
  { session with made := session.made ++ [(session.underway.length, node)] }

/-- What is listed at a place has its result. -/
def settled (made : List (Nat × TraceNode)) (place : Option Nat) (result : TraceNode → TraceNode) :
    List (Nat × TraceNode) :=
  match place with
  | some i => made.modify i fun entry => (entry.1, result entry.2)
  | none => made

def settle (place : Option Nat) (result : TraceNode → TraceNode) : Session :=
  { session with made := settled session.made place result }

def withCalls (calls : List (Option Nat)) : Session := { session with runner := { session.runner with calls } }

def withEffects (effects : List Nat) : Session := { session with runner := { session.runner with effects } }

/-- The call of the innermost frame, with its result. -/
def endCall (result : TraceNode → TraceNode) : Session :=
  (session.settle session.runner.calls.head?.join result).withCalls session.runner.calls.tail

/-- **Keep the account of what is done.** A call that fails before its body fails with its error; a call that
ends in a tail call has no result of its own. -/
def account : Happening → Session
  | .entered => session.withCalls (none :: session.runner.calls)
  | .invoked c => (session.start (callNode shown c)).withCalls (some session.made.length :: session.runner.calls)
  | .rejected c e | .overflowed c e => session.start (setError (host.debugError e) (callNode shown c))
  | .answered c v => session.start (setOutput (value_to_json shown v) (callNode shown c))
  | .tailCalled c =>
    let ended := session.endCall (setOutput .null)
    (ended.start (callNode shown c)).withCalls (some ended.made.length :: ended.runner.calls)
  | .tailAnswered c v =>
    (session.endCall (setOutput .null)).start (setOutput (value_to_json shown v) (callNode shown c))
  | .returned v => session.endCall (setOutput (value_to_json shown v))
  | .effectStarted c =>
    (session.start (effectNode shown c)).withEffects (session.made.length :: session.runner.effects)
  | .effectEnded (.ok v) =>
    (session.settle session.runner.effects.head? (setOutput (value_to_json shown v))).withEffects
      session.runner.effects.tail
  | .effectEnded (.error e) =>
    (session.settle session.runner.effects.head? (setError e)).withEffects session.runner.effects.tail

/-- The calls of the frames above a base are over, with an error. -/
def abandon (base : Nat) (e : VmError) : Session :=
  let calls := session.runner.calls
  let ended := calls.take (calls.length - base)
  let settled := ended.foldl (fun session call => session.settle call (setError (host.debugError e))) session
  settled.withCalls (ended.map (fun _ => none) ++ calls.drop (calls.length - base))

/-! ## Steps -/

/-- What a step makes of the kinds of the frames. -/
def kindsAfter (kinds : List FrameKind) : Option Happening → List FrameKind
  | some .entered => .entry :: kinds
  | some (.invoked _) => .call :: kinds
  | some (.tailCalled _) => .call :: kinds.tail
  | some (.tailAnswered ..) | some (.returned _) => kinds.tail
  | _ => kinds

/-- What a step tells the recorder. -/
def tells : List TracerCall :=
  match session.happening host input budget with
  | some happening => happening.tracerCalls (session.runner.kinds.headD .entry)
  | none => []

/-- **A step of the machine**, with what the recorder is told and what is to be accounted for. -/
def after (o : Outcome) : Session :=
  let happening := session.happening host input budget
  let told := { session with recorder := session.recorder.tellAll shown (session.tells host input budget) }
  let accounted := match happening with
    | some happening => told.account shown host happening
    | none => told
  let abandoned := match escape session.runner.vm o.vm with
    | some (base, e) => accounted.abandon host base e
    | none => accounted
  { abandoned with
    runner := { abandoned.runner with vm := o.vm, kinds := kindsAfter session.runner.kinds happening } }

end Session

/-- **The sessions of a recorder** whose steps all satisfy `P`: the host makes machines, calls them, and takes
turns with them while none is running. -/
inductive Recording (shown : Shown) (host : Host) (P : Session → Input → Budget → Outcome → Prop) : Session → Prop
  | new (overrides : String → Option Json.Value) (program : Program) (nodeIds : Nat → Nat → String)
      (stepLimit : Nat) : Recording shown host P (.new overrides (.new program nodeIds stepLimit))
  | another {session : Session} (h : Recording shown host P session) (hrest : session.runner.AtRest)
      (program : Program) (nodeIds : Nat → Nat → String) (stepLimit : Nat) :
      Recording shown host P
        { session with
          runner := .new program nodeIds stepLimit, waiting := session.runner :: session.waiting }
  | switch {session : Session} (h : Recording shown host P session) (hrest : session.runner.AtRest)
      (before after : List Runner) (runner : Runner) (hwaiting : session.waiting = before ++ runner :: after) :
      Recording shown host P { session with runner, waiting := session.runner :: (before ++ after) }
  | call {session : Session} (h : Recording shown host P session) (hrest : session.runner.AtRest) (fnId : Nat)
      (args : List Value) :
      Recording shown host P
        { session with
          runner := { session.runner with vm := session.runner.vm.goto (.invoke fnId args) } }
  | step {session : Session} {input : Input} {budget : Budget} {o : Outcome} (h : Recording shown host P session)
      (hstep : session.runner.vm.step session.runner.program host input budget = some o)
      (hstay : P session input budget o) : Recording shown host P (session.after shown host input budget o)

/-- **The trace is the run**: the trees that are handed out list what was done, and nothing is open for a later
run to be nested under. -/
structure Session.TraceIsRun (session : Session) : Prop where
  nodes (rootTarget : String) (rootInput : Json.Value) (rootOutput : Option Json.Value)
    (rootError : Option String) :
    listing 0 (session.recorder.finalize rootTarget rootInput rootOutput rootError).nodes = session.made
  closed : session.recorder.nodes.path = []

end LexLang.Trace
