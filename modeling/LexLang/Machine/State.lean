/-
# LexLang.Machine.State — the state of a machine

`Vm`, its `Frame`s and the budget it shares with other machines (`lex-bytecode/src/vm/mod.rs`). The machine
calls back into itself: a native that maps a list, a parser, an actor's turn all `invoke` functions from
inside of `run_to`. What of the host's own call stack waits for such a call to come back is a list of `Native`
frames, the innermost first.
-/
import LexLang.Machine.Instruction

namespace LexLang.Machine

/-- The most frames at a time. -/
def maxCallDepth : Nat := 1024

/-- The slots of the slab that a frame may take. -/
def stackRecordBudgetSlots : Nat := 64

/-- The calls without a hit after which a function is not memoized any more. -/
def memoWarmupCalls : Nat := 64

structure Frame where
  fnId : Nat
  pc : Nat
  localsStart : Nat
  localsLen : Nat
  stackBase : Nat
  memoKey : Option (Nat × Nat)
  stackRecordArenaStart : Nat
  stackRecordBudgetRemaining : Nat

structure MemoFnState where
  enabled : Bool
  calls : Nat
  hits : Nat

/-! ## The host's stack -/

/-- The parts of `ask`, `tell` and `ask_async` that differ. -/
inductive ConcOp
  | ask
  | tell
  | askAsync (slot : Nat)

def ConcOp.name : ConcOp → String
  | .ask => "ask"
  | .tell => "tell"
  | .askAsync _ => "ask_async"

/-- How a worker answers for an item: not at all where it panicked. -/
abbrev Answer := Option (Except String Value)

inductive Native
  | runTo (baseDepth : Nat)
  | listMap (f : Value) (rest out : List Value)
  | listFilter (f item : Value) (rest out : List Value)
  | listFold (f : Value) (rest : List Value)
  | sortByKey (f item : Value) (rest : List Value) (keyed : List (Value × Value))
  -- the arm of `EffectCall`
  | effectCall
  | runParserOp
  | seqFirst (b : Value) (input : List UInt8)
  | seqSecond (va : Value)
  | alt (b : Value) (input : List UInt8) (pos : Nat)
  | many (p : Value) (input : List UInt8) (cur : Nat) (out : List Value)
  | optional (pos : Nat)
  | mapParsed (f : Value) (pos : Nat)
  | mapCalled (pos np : Nat)
  | andThenParsed (f : Value) (input : List UInt8)
  | andThenCalled (input : List UInt8) (np : Nat)
  | runActorTurn (op : ConcOp)
  -- the loop of a worker of `par_map`
  | parMapWorker

/-- What the machine does next. -/
inductive Control
  | idle
  -- the loop of the innermost `run_to`
  | run
  | invokeClosure (closure : Value) (args : List Value)
  | invoke (fnId : Nat) (args : List Value)
  -- `invoke` has returned
  | finished (result : Except VmError Value)
  | parse (input : List UInt8) (node : Value) (pos : Nat)
  | parsed (result : Except (Nat × String) (Value × Nat))
  -- an effect has returned
  | replied (result : Except String Value)
  | awaitTurn (op : ConcOp) (msg : Value)
  | join (items : Nat)
  -- the thread is gone
  | crashed

/-- How a function is entered. -/
inductive Route
  | call
  | tailCall
  | callClosure
  -- `invoke`, from a native
  | native
  -- `invoke`, from the host
  | entry

/-- Whether a call by this route is charged. -/
def Route.charges : Route → Bool
  | call | tailCall | callClosure => true
  | native | entry => false

structure Vm where
  frames : List Frame
  memory : Memory
  -- the length of the slab when each open request scope was entered
  arenaScopeStarts : List Nat
  pureMemo : List ((Nat × Nat) × Value)
  memoFnState : Nat → MemoFnState
  steps : Nat
  stepLimit : Nat
  natives : List Native
  control : Control

namespace Vm

/-- `Vm::with_handler`. -/
def new (stepLimit : Nat) : Vm where
  frames := []
  memory := ⟨[], [], [], [], fun _ _ => none⟩
  arenaScopeStarts := []
  pureMemo := []
  memoFnState := fun _ => ⟨true, 0, 0⟩
  steps := 0
  stepLimit := stepLimit
  natives := []
  control := .idle

variable (vm : Vm)

def push (v : Value) : Vm := { vm with memory := { vm.memory with stack := v :: vm.memory.stack } }

def withStack (stack : List Value) : Vm := { vm with memory := { vm.memory with stack := stack } }

def onLocals (f : List Value → List Value) : Vm :=
  { vm with memory := { vm.memory with localsStorage := f vm.memory.localsStorage } }

def goto (control : Control) : Vm := { vm with control := control }

/-- Wait for a call, and go on with it. -/
def await (native : Native) (control : Control) : Vm :=
  { vm with natives := native :: vm.natives, control := control }

/-- Push a value and go on in the loop. -/
def resume (v : Value) : Vm := (vm.push v).goto .run

/-- Leave the innermost `run_to`. -/
def leave (result : Except VmError Value) : Vm :=
  match vm.natives with
  | .runTo _ :: natives => { vm with natives := natives, control := .finished result }
  | _ => vm.goto .crashed

/-- An error: nothing is popped. -/
def raise (e : VmError) : Vm := vm.leave (.error e)

/-- How `invoke` is called. -/
def invokeRoute : Route := if vm.natives.isEmpty then .entry else .native

/-- Drop what lies above a frame, and the frame's own slots. -/
def release (frame : Frame) : Vm :=
  { vm with
    memory :=
      { vm.memory with
        stack := vm.memory.stack.drop (vm.memory.stack.length - frame.stackBase)
        localsStorage := vm.memory.localsStorage.take frame.localsStart
        stackRecordArena := vm.memory.stackRecordArena.take frame.stackRecordArenaStart } }

/-- The result of a popped frame: out of the innermost `run_to` at its base, else to the caller. -/
def yield (v : Value) : Vm :=
  match vm.natives with
  | .runTo base :: _ => if vm.frames.length ≤ base then vm.leave (.ok v) else vm.resume v
  | _ => vm.goto .crashed

end Vm

/-! ## The budget -/

/-- The pool of a run. Without a ceiling nothing is taken from it. -/
structure Budget where
  ceiling : Option Nat
  remaining : Nat

def Budget.start (ceiling : Option Nat) : Budget := ⟨ceiling, ceiling.getD u64Max⟩

/-- `note_call_budget`, which takes the whole cost at once or refuses. -/
def Budget.noteCallBudget (budget : Budget) (cost : Nat) : Except String Budget :=
  match budget.ceiling with
  | none => .ok budget
  | some ceiling =>
    if budget.remaining < cost then
      .error ("budget exceeded: requested " ++ toString cost ++ ", used so far " ++
        toString (ceiling - budget.remaining) ++ ", ceiling " ++ toString ceiling)
    else .ok { budget with remaining := budget.remaining - cost }

/-! ## What a step reports -/

/-- How a call got its result, or is going to. -/
inductive Start
  -- the body starts in a frame
  | frame
  -- native code ran in its place
  | jit
  | memo

inductive Event
  | charged (fnId cost : Nat)
  | refused (fnId cost : Nat)
  | activated (route : Route) (start : Start) (fnId : Nat) (args : List Value)

/-- A message that is handled on a thread of its own. -/
inductive Spawn
  | parMap (f : Value) (items : List Value) (workers : Nat)
  | askAsync (msg : Value)

structure Outcome where
  vm : Vm
  budget : Budget
  events : List Event
  spawned : Option Spawn

namespace Outcome

/-- A step that calls nothing. -/
def quiet (budget : Budget) (vm : Vm) : Outcome := ⟨vm, budget, [], none⟩

def after (events : List Event) (outcome : Outcome) : Outcome :=
  { outcome with events := events ++ outcome.events }

end Outcome

/-! ## What a step asks for -/

structure HookAnswer where
  result : Except VmError (Option Value)
  steps : Nat

/-- What lies outside of the machine: the hook, the handler, the tracer, the actors, the other threads. -/
structure Input where
  -- `none` where no hook is installed
  hook : Option HookAnswer
  -- the result of an effect that the tracer replays
  overrideEffect : Option Value
  dispatch : Except String Value
  takeExit : Option Int
  -- the handler and the state of an actor whose turn it is
  turn : Option (Value × Value)
  -- how the operation of an actor is done, when it needs no turn here
  reply : Option (Except String Value)
  -- whether a worker gets a handler of its own, and the slot of its reply
  worker : Option Nat
  slot : Nat
  parWorkers : Nat
  answers : Option (List Answer)

end LexLang.Machine
