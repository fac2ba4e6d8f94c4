/-
# LexLang.Trace.Recorder — the recorder

The `Tracer` that builds a `TraceTree` (`lex-trace/src/recorder.rs`). Calls and effects that were entered are
open until they are exited, innermost first; what is exited goes under the innermost open one, or to the trees
that are complete. `finalize` hands out the complete ones.
-/
import LexLang.Trace.Forest
import LexLang.Trace.ValueJson

namespace LexLang.Trace

open LexLang.Machine (Value Host)

inductive TraceNodeKind
  | call
  | effect
  deriving DecidableEq

/-- What a `TraceNode` says of a call or an effect, without its children. -/
structure TraceNode where
  nodeId : String
  kind : TraceNodeKind
  -- the function, or `kind.op` of the effect
  target : String
  input : Json.Value
  output : Option Json.Value
  error : Option String

structure TraceTree where
  rootTarget : String
  rootInput : Json.Value
  rootOutput : Option Json.Value
  rootError : Option String
  nodes : List (Tree TraceNode)

structure RecorderState where
  nodes : OpenForest TraceNode
  -- effect overrides for replay, keyed by node id
  overrides : String → Option Json.Value

namespace RecorderState

variable (shown : Shown) (host : Host) (state : RecorderState)

/-- `Recorder::new`. -/
def new : RecorderState := ⟨.empty, fun _ => none⟩

/-- `Recorder::with_overrides`. -/
def with_overrides (overrides : String → Option Json.Value) : RecorderState := { state with overrides }

def push_call_frame (nodeId name : String) (args : List Value) : RecorderState :=
  { state with nodes := state.nodes.enter ⟨nodeId, .call, name, values_to_json shown args, none, none⟩ }

def push_effect_frame (nodeId kind op : String) (args : List Value) : RecorderState :=
  { state with
    nodes := state.nodes.enter ⟨nodeId, .effect, kind ++ "." ++ op, values_to_json shown args, none, none⟩ }

def exit_ok_frame (value : Value) : RecorderState :=
  { state with nodes := state.nodes.exit fun node => { node with output := some (value_to_json shown value) } }

def exit_err_frame (message : String) : RecorderState :=
  { state with nodes := state.nodes.exit fun node => { node with error := some message } }

def exit_tail_frame : RecorderState :=
  { state with nodes := state.nodes.exit fun node => { node with output := some .null } }

def lookup_override (nodeId : String) : Option Value := (state.overrides nodeId).map (json_to_value host)

/-- `Handle::finalize`. -/
def finalize (rootTarget : String) (rootInput : Json.Value) (rootOutput : Option Json.Value)
    (rootError : Option String) : TraceTree :=
  ⟨rootTarget, rootInput, rootOutput, rootError, state.nodes.completed⟩

end RecorderState

/-! ## Tracers -/

/-- What a machine tells its `Tracer`. -/
inductive TracerCall
  | enter_call (nodeId name : String) (args : List Value)
  | enter_effect (nodeId kind op : String) (args : List Value)
  | exit_ok (value : Value)
  | exit_err (message : String)
  | exit_call_tail

/-- `impl Tracer for Recorder`, and for `Handle`. -/
def RecorderState.tell (shown : Shown) (state : RecorderState) : TracerCall → RecorderState
  | .enter_call nodeId name args => state.push_call_frame shown nodeId name args
  | .enter_effect nodeId kind op args => state.push_effect_frame shown nodeId kind op args
  | .exit_ok value => state.exit_ok_frame shown value
  | .exit_err message => state.exit_err_frame message
  | .exit_call_tail => state.exit_tail_frame

def RecorderState.tellAll (shown : Shown) (state : RecorderState) (calls : List TracerCall) : RecorderState :=
  calls.foldl (RecorderState.tell shown) state

end LexLang.Trace
