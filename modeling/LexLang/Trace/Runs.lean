/-
# LexLang.Trace.Runs — runs that are traced

An instruction that begins an effect asks the tracer before it asks the handler (`Op::EffectCall`,
`lex-bytecode/src/vm/dispatch.rs`; `lookup_override`, `lex-trace/src/recorder.rs`). `Surroundings` are the rest of
what answers a machine: the handler, the native code, the budget, the threads; they may answer by all that was
done so far.
-/
import LexLang.Trace.Diff
import LexLang.Trace.Readable
import LexLang.Trace.Session

namespace LexLang.Trace

open LexLang.Machine

abbrev Surroundings := Session → Input × Budget

namespace Session

section Turns

variable (shown : Shown) (host : Host) (world : Surroundings) (session : Session)

/-- What the next step is. -/
def next : Option Happening := session.happening host (world session).1 (world session).2

/-- What the tracer has for the effect that is begun next. -/
def override : Option Value :=
  match session.next host world with
  | some (.effectStarted c) => session.recorder.lookup_override host c.nodeId
  | _ => none

/-- What the machine is answered: the tracer is asked first. -/
def answered : Input := { (world session).1 with overrideEffect := session.override host world }

/-- **One turn of a machine that is traced.** -/
def turn : Option Session :=
  let input := session.answered host world
  let budget := (world session).2
  (session.runner.vm.step session.runner.program host input budget).map fun o =>
    session.after shown host input budget o

/-- The next step asks the handler for the result of an effect. -/
def Consults : Prop := (∃ c, session.next host world = some (.effectStarted c)) ∧ session.override host world = none

/-- So a run goes on. -/
def Turns (session' : Session) : Prop := session.turn shown host world = some session'

/-- So a run goes on, and the handler is not asked. -/
def TurnsAlone (session' : Session) : Prop := session.Turns shown host world session' ∧ ¬ session.Consults host world

end Turns

/-! ## Calls from the host -/

/-- A function is called on a new machine, with a new recorder. -/
def calling (program : Program) (nodeIds : Nat → Nat → String) (stepLimit : Nat)
    (overrides : String → Option Json.Value) (fnId : Nat) (args : List Value) : Session :=
  let session := Session.new overrides (.new program nodeIds stepLimit)
  { session with runner := { session.runner with vm := session.runner.vm.goto (.invoke fnId args) } }

/-- The call has succeeded. -/
structure Returned (session : Session) (v : Value) : Prop where
  natives : session.runner.vm.natives = []
  control : session.runner.vm.control = .finished (.ok v)

/-- The same, with other overrides. -/
def withOverrides (session : Session) (overrides : String → Option Json.Value) : Session :=
  { session with recorder := session.recorder.with_overrides overrides }

/-- An effect calls a function of the program. -/
def CallsBack (session : Session) : Prop :=
  .effectCall ∈ session.runner.vm.natives ∧ ∃ callee args, session.runner.vm.control = .invokeClosure callee args

end Session

/-! ## Replays -/

/-- **The surroundings of a replay**: the calls are answered as they were. The handler is not to be asked: it
answers an effect in any way, and asks for no exit. -/
structure Surroundings.Replay (world world' : Surroundings) (overrides : String → Option Json.Value) : Prop where
  hook (session : Session) : (world' (session.withOverrides overrides)).1.hook = (world session).1.hook
  answers (session : Session) : (world' (session.withOverrides overrides)).1.answers = (world session).1.answers
  budget (session : Session) (cost : Nat) (left : Budget) (h : (world session).2.noteCallBudget cost = .ok left) :
    ∃ left', (world' (session.withOverrides overrides)).2.noteCallBudget cost = .ok left'
  takeExit (session : Session) : (world' (session.withOverrides overrides)).1.takeExit = none

/-- **A recorded run that can be replayed**: every result of an effect is read back as it was, no effect calls back
into the program, and in its trace the effects with one node id have one output. -/
structure Replayable (shown : Shown) (host : Host) (world : Surroundings) (start : Session) (tree : TraceTree) :
    Prop where
  readable (session : Session) (hreach : Relation.ReflTransGen (Session.Turns shown host world) start session)
    (v : Value) (hended : session.next host world = some (.effectEnded (.ok v))) : Readable host v
  noCallBack (session : Session) (hreach : Relation.ReflTransGen (Session.Turns shown host world) start session) :
    ¬ session.CallsBack
  oneOutput (o o' : Override) (ho : o ∈ tree.effectOutputs) (ho' : o' ∈ tree.effectOutputs) (hid : o.nodeId = o'.nodeId) : o.output = o'.output

end LexLang.Trace
