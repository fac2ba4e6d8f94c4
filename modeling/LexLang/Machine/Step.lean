/-
# LexLang.Machine.Step — one step of a machine

The arms of the dispatch loop that call (`lex-bytecode/src/vm/dispatch.rs`), `Vm::invoke`, the closures that
natives call and the operations of actors (`vm/mod.rs`, `vm/closures.rs`, `vm/native_list.rs`). A step is one
instruction, or what a native does between two calls of its own.
-/
import LexLang.Machine.Parser

namespace LexLang.Machine

/-! ## Handles

A value that leaves the machine must not refer to the slab of a request scope. -/

section Materialize

variable (program : Program) (slab : List Value)

def shapeNames : List Nat → Option (List String)
  | [] => some []
  | i :: is =>
    match program.constants[i]? with
    | some (.fieldName s) => (shapeNames is).map (s :: ·)
    | _ => none

/-- The cells of a handle. -/
def slabCells (resolve : Value → Option Value) (start count : Nat) : Option (List Value) :=
  (List.range count).mapM fun i => (slab[start + i]?).bind resolve

mutual

/-- Replace the handles in a value, whose cells `resolve` deals with. -/
def materializeWith (resolve : Value → Option Value) : Value → Option Value
  | .list items => (materializeItems resolve items).map .list
  | .tuple items => (materializeItems resolve items).map .tuple
  | .variant name args => (materializeItems resolve args).map (.variant name)
  | .record shapeId fields => (materializeFields resolve fields).map (.record shapeId)
  | .arenaRecord shapeId slabStart fieldCount => do
    let names ← shapeNames program ((← program.recordShapes[shapeId]?).take fieldCount)
    let cells ← slabCells slab resolve slabStart names.length
    some (.record shapeId ((names.zip cells).foldl (fun fields p => insertField fields p.1 p.2) []))
  | .arenaTuple slabStart arity => (slabCells slab resolve slabStart arity).map .tuple
  | .stackRecord .. | .stackTuple .. => none
  | other => some other

def materializeItems (resolve : Value → Option Value) : List Value → Option (List Value)
  | [] => some []
  | v :: vs => do
    let v ← materializeWith resolve v
    let vs ← materializeItems resolve vs
    some (v :: vs)

def materializeFields (resolve : Value → Option Value) : List (String × Value) → Option (List (String × Value))
  | [] => some []
  | (name, v) :: fields => do
    let v ← materializeWith resolve v
    let fields ← materializeFields resolve fields
    some ((name, v) :: fields)

end

/-- Handles inside of handles, to some depth. -/
def materializeTo : Nat → Value → Option Value
  | 0 => materializeWith program slab fun _ => none
  | depth + 1 => materializeWith program slab (materializeTo depth)

/-- `materialize_arena_handles`; `none` where it panics. Handles that go deeper than the slab has cells lead
back to themselves. -/
def materialize (v : Value) : Option Value := materializeTo program slab (slab.length + 1) v

end Materialize

/-! ## The prologue of a call -/

section Prologue

variable (host : Host)

/-- Evaluate every predicate of the function, the first parameter first. -/
def checkRefinements (fnName : String) (arg : Nat → Option Value) :
    Nat → List (Option Refinement) → Except (Fault VmError) Unit
  | _, [] => .ok ()
  | i, none :: rest => checkRefinements fnName arg (i + 1) rest
  | i, some r :: rest => do
    let a ← orPanic (arg i)
    match evalRefinement host r a with
    | .ok true => checkRefinements fnName arg (i + 1) rest
    | .ok false =>
      .error (.err (.refinementFailed fnName i r.binding ⟨"predicate failed for " ++ r.binding ++ " = ", [a]⟩))
    | .error (.err reason) => .error (.err (.refinementFailed fnName i r.binding reason))
    | .error .panicked => .error .panicked

/-- Charge a call before it is made. -/
def charge (budget : Budget) (fnId : Nat) (f : Function) (vm : Vm) (next : Budget → Outcome) : Outcome :=
  let cost := callBudgetCost f
  if cost = 0 then next budget
  else
    match budget.noteCallBudget cost with
    | .error message => ⟨vm.raise (.effect message), budget, [.refused fnId cost], none⟩
    | .ok budget => (next budget).after [.charged fnId cost]

/-- Go on where the arguments satisfy the predicates. -/
def checked (budget : Budget) (f : Function) (arg : Nat → Option Value) (vm : Vm) (next : Outcome) : Outcome :=
  match checkRefinements host f.name arg 0 f.refinements with
  | .ok () => next
  | .error (.err e) => .quiet budget (vm.raise e)
  | .error .panicked => .quiet budget (vm.goto .crashed)

/-- Offer a call to the hook. -/
def hooked (input : Input) (budget : Budget) (vm : Vm) (answered : Vm → Value → Outcome)
    (declined : Vm → Outcome) : Outcome :=
  match input.hook with
  | none => declined vm
  | some answer =>
    let vm := { vm with steps := answer.steps }
    match answer.result with
    | .error e => .quiet budget (vm.raise e)
    | .ok (some v) => answered vm v
    | .ok none => declined vm

/-- The slots of a frame on entry. -/
def frameSlots (f : Function) (args : List Value) : List Value :=
  args ++ List.replicate (f.frameSize - args.length) .unit

/-- Claim the slots of a frame and push it. Where the frames are too many the slots stay. -/
def enter (budget : Budget) (route : Route) (fnId : Nat) (f : Function) (args : List Value)
    (memoKey : Option (Nat × Nat)) (vm : Vm) : Outcome :=
  if f.frameSize < args.length then .quiet budget (vm.goto .crashed)
  else
    let claimed := vm.onLocals (· ++ frameSlots f args)
    if maxCallDepth ≤ vm.frames.length then .quiet budget (claimed.raise (.callStackOverflow maxCallDepth))
    else
      let frame : Frame :=
        { fnId, pc := 0
          localsStart := vm.memory.localsStorage.length
          localsLen := f.frameSize
          stackBase := vm.memory.stack.length
          memoKey
          stackRecordArenaStart := vm.memory.stackRecordArena.length
          stackRecordBudgetRemaining := stackRecordBudgetSlots }
      ⟨{ claimed with frames := frame :: vm.frames, control := .run }, budget,
        [.activated route .frame fnId args], none⟩

end Prologue

namespace Vm

variable (program : Program) (host : Host) (input : Input) (budget : Budget) (vm : Vm)

/-! ## Calls -/

/-- The key that a call is looked up by, where the function has no effects; `none` where the digest panics. -/
def memoKey (fnId : Nat) (f : Function) (args : List Value) : Option (Option (Nat × Nat)) :=
  if f.effects.isEmpty && (vm.memoFnState fnId).enabled && !Value.anyArenaRecord args &&
      !host.memoArgsExceed args then
    (host.hashCallArgs args).map fun digest => some (fnId, digest)
  else some none

def memoize (key : Option (Nat × Nat)) (v : Value) : Vm :=
  match key with
  | some key => { vm with pureMemo := (key, v) :: vm.pureMemo }
  | none => vm

/-- Count a call of a function that is looked up. -/
def countCall (fnId : Nat) (hit : Bool) : Vm :=
  let st := vm.memoFnState fnId
  let calls := st.calls + 1
  let hits := if hit then st.hits + 1 else st.hits
  let enabled := st.enabled && (hit || !(memoWarmupCalls ≤ calls && hits == 0))
  { vm with memoFnState := Function.update vm.memoFnState fnId ⟨enabled, calls, hits⟩ }

/-- A call that is not in the cache. -/
def callMissed (fnId : Nat) (f : Function) (args below : List Value) (key : Option (Nat × Nat)) : Outcome :=
  hooked input budget vm
    (fun vm v =>
      ⟨((vm.memoize key v).withStack below).resume v, budget, [.activated .call .jit fnId args], none⟩)
    fun vm => enter budget .call fnId f args key (vm.withStack below)

def callChecked (fnId : Nat) (f : Function) (args below : List Value) : Outcome :=
  match vm.memoKey host fnId f args with
  | none => .quiet budget (vm.goto .crashed)
  | some none => vm.callMissed input budget fnId f args below none
  | some (some key) =>
    match vm.pureMemo.lookup key with
    | some cached =>
      ⟨((vm.countCall fnId true).withStack below).resume cached, budget,
        [.activated .call .memo fnId args], none⟩
    | none => (vm.countCall fnId false).callMissed input budget fnId f args below (some key)

/-- The arm of `Call`. -/
def call (fnId arity : Nat) : Outcome :=
  match program.functions[fnId]? with
  | none => .quiet budget (vm.goto .crashed)
  | some f =>
    if vm.memory.stack.length < arity then .quiet budget (vm.goto .crashed)
    else
      let args := (vm.memory.stack.take arity).reverse
      charge budget fnId f vm fun budget =>
        checked host budget f (args[·]?) vm <|
          vm.callChecked host input budget fnId f args (vm.memory.stack.drop arity)

/-- Put a call in the place of the innermost frame. -/
def reuse (fnId : Nat) (f : Function) (args below : List Value) : Outcome :=
  match vm.frames with
  | [] => .quiet budget (vm.goto .crashed)
  | frame :: frames =>
    if f.frameSize < args.length then .quiet budget (vm.goto .crashed)
    else
      let memory :=
        { vm.memory with
          stack := below
          localsStorage := vm.memory.localsStorage.take frame.localsStart ++ frameSlots f args
          stackRecordArena := vm.memory.stackRecordArena.take frame.stackRecordArenaStart }
      let frame :=
        { frame with
          fnId, pc := 0, localsLen := f.frameSize, stackRecordBudgetRemaining := stackRecordBudgetSlots }
      ⟨{ vm with memory, frames := frame :: frames, control := .run }, budget,
        [.activated .tailCall .frame fnId args], none⟩

/-- The innermost frame is done without its `Return`. -/
def collapse (v : Value) : Vm :=
  match vm.frames with
  | [] => vm.goto .crashed
  | frame :: frames => ({ vm with frames := frames }.release frame).yield v

/-- The arm of `TailCall`. -/
def tailCall (fnId arity : Nat) : Outcome :=
  match program.functions[fnId]? with
  | none => .quiet budget (vm.goto .crashed)
  | some f =>
    if vm.memory.stack.length < arity then .quiet budget (vm.goto .crashed)
    else
      let args := (vm.memory.stack.take arity).reverse
      charge budget fnId f vm fun budget =>
        checked host budget f (args[·]?) vm <|
          hooked input budget vm
            (fun vm v => ⟨vm.collapse v, budget, [.activated .tailCall .jit fnId args], none⟩)
            fun vm => vm.reuse budget fnId f args (vm.memory.stack.drop arity)

/-- The arm of `CallClosure`. No predicate is evaluated. -/
def callClosure (arity : Nat) : Outcome :=
  match vm.memory.stack[arity]? with
  | none => .quiet budget (vm.goto .crashed)
  | some callee =>
    -- the closure is moved out of its place
    let vm := vm.withStack (vm.memory.stack.set arity .unit)
    match callee with
    | .closure fnId _ captures =>
      match program.functions[fnId]? with
      | none => .quiet budget (vm.goto .crashed)
      | some f =>
        charge budget fnId f vm fun budget =>
          enter budget .callClosure fnId f (captures ++ (vm.memory.stack.take arity).reverse) none
            (vm.withStack (vm.memory.stack.drop (arity + 1)))
    | other => .quiet budget (vm.raise (.typeMismatch ⟨"CallClosure on non-closure: ", [other]⟩))

/-- The arm of `Return`. -/
def ret : Vm :=
  match vm.memory.stack, vm.frames with
  | [], _ => vm.raise .stackUnderflow
  | _ :: _, [] => vm.goto .crashed
  | v :: _, frame :: frames =>
    ((({ vm with frames := frames }.release frame).memoize frame.memoKey v)).yield v

/-- `Vm::invoke`: a call from the host, or from a native. Nothing is charged. -/
def invoke (fnId : Nat) (args : List Value) : Outcome :=
  match program.functions[fnId]? with
  | none => .quiet budget (vm.goto .crashed)
  | some f =>
    if args.length ≠ f.arity then
      .quiet budget (vm.goto (.finished (.error (.panic ("arity mismatch calling " ++ f.name)))))
    else
      let inner := { vm with natives := .runTo vm.frames.length :: vm.natives }
      checked host budget f (fun i => some (args.getD i .unit)) inner <|
        hooked input budget inner
          (fun inner v => ⟨inner.leave (.ok v), budget, [.activated vm.invokeRoute .jit fnId args], none⟩)
          fun inner => enter budget vm.invokeRoute fnId f args none inner

/-! ## Lists -/

def mapNext (f : Value) (rest out : List Value) : Vm :=
  match rest with
  | [] => vm.resume (.list out)
  | item :: rest => vm.await (.listMap f rest out) (.invokeClosure f [item])

def filterNext (f : Value) (rest out : List Value) : Vm :=
  match rest with
  | [] => vm.resume (.list out)
  | item :: rest => vm.await (.listFilter f item rest out) (.invokeClosure f [item])

def foldNext (f acc : Value) (rest : List Value) : Vm :=
  match rest with
  | [] => vm.resume acc
  | item :: rest => vm.await (.listFold f rest) (.invokeClosure f [acc, item])

/-- `compare_sort_keys`, as "does not come after". -/
def keyNotAfter : Value → Value → Bool
  | .int a, .int b => a ≤ b
  | .float a, .float b => !(b < a)
  | .str a, .str b => a ≤ b
  | _, _ => true

def sortNext (f : Value) (rest : List Value) (keyed : List (Value × Value)) : Vm :=
  match rest with
  | [] => vm.resume (.list ((keyed.mergeSort fun a b => keyNotAfter a.1 b.1).map Prod.snd))
  | item :: rest => vm.await (.sortByKey f item rest keyed) (.invokeClosure f [item])

/-- Pop a list and what is applied to its items. -/
def withList (text : String) (k : Vm → Value → List Value → Outcome) : Outcome :=
  match vm.memory.stack with
  | f :: xs :: below =>
    let vm := vm.withStack below
    match xs, f with
    | .list items, .closure .. => k vm f items
    | .list _, _ => .quiet budget (vm.raise (.typeMismatch ⟨text ++ " requires a closure, got: ", [f]⟩))
    | _, _ => .quiet budget (vm.raise (.typeMismatch ⟨text ++ " requires a List, got: ", [xs]⟩))
  | _ => .quiet budget ((vm.withStack []).raise .stackUnderflow)

/-- The arm of `ListFold`. -/
def listFold : Vm :=
  match vm.memory.stack with
  | f :: init :: xs :: below =>
    let vm := vm.withStack below
    match xs, f with
    | .list items, .closure .. => vm.foldNext f init items
    | .list _, _ => vm.raise (.typeMismatch ⟨"ListFold requires a closure, got: ", [f]⟩)
    | _, _ => vm.raise (.typeMismatch ⟨"ListFold requires a List, got: ", [xs]⟩)
  | _ => (vm.withStack []).raise .stackUnderflow

/-- The arm of `ParallelMap`: the items go to workers, and this thread waits for them. -/
def parallelMap : Outcome :=
  vm.withList budget "ParallelMap" fun vm f items =>
    if items.isEmpty then .quiet budget (vm.resume (.list []))
    else ⟨vm.goto (.join items.length), budget, [], some (.parMap f items input.parWorkers)⟩

/-- Collect what the workers answered. -/
def collect : List Answer → List Value → Vm
  | [], out => vm.resume (.list out)
  | some (.ok v) :: answers, out => collect answers (out ++ [v])
  | some (.error e) :: _, _ => vm.raise (.effect ("par_map worker: " ++ e))
  | none :: _, _ => vm.raise (.panic "par_map worker did not produce a result")

/-! ## Effects -/

def runParserOp (args : List Value) : Vm :=
  match args with
  | [] => vm.goto (.replied (.error "parser.run: missing parser arg"))
  | parser :: rest =>
    match rest with
    | .str s :: _ => vm.await .runParserOp (.parse s.toUTF8.toList parser 0)
    | _ => vm.goto (.replied (.error "parser.run: input must be Str"))

/-- A message to an actor. -/
def send (op : ConcOp) (args : List Value) : Outcome :=
  match args.getD 0 .unit with
  | .actor _ =>
    match input.reply, op, input.worker with
    -- a bridge into the host takes no turn
    | some r, _, _ => .quiet budget (vm.goto (.replied r))
    | none, .askAsync _, some slot =>
      ⟨vm.goto (.replied (.ok (.askHandle slot))), budget, [], some (.askAsync (args.getD 1 .unit))⟩
    | none, _, _ => .quiet budget (vm.goto (.awaitTurn op (args.getD 1 .unit)))
  | other =>
    .quiet budget (vm.goto (.replied (.error
      ("conc." ++ op.name ++ ": first arg must be an Actor, got " ++ host.debug other))))

/-- `run_conc_op`. -/
def runConcOp (op : String) (args : List Value) : Option Outcome :=
  match op with
  | "ask" => some (vm.send host input budget .ask args)
  | "tell" => some (vm.send host input budget .tell args)
  | "ask_async" => some (vm.send host input budget (.askAsync input.slot) args)
  | _ => input.reply.map fun r => .quiet budget (vm.goto (.replied r))

/-- The message is handled. -/
def turnDone (op : ConcOp) (reply : Except String Value) : Vm :=
  match op with
  | .ask => vm.goto (.replied reply)
  | .tell => vm.goto (.replied (reply.map fun _ => .unit))
  | .askAsync slot => vm.goto (.replied (.ok (.askHandle slot)))

/-- `run_actor_turn`, when the handler has returned. -/
def afterHandler (op : ConcOp) (result : Except VmError Value) : Vm :=
  match result with
  | .error e => vm.turnDone op (.error ("conc." ++ op.name ++ ": handler error: " ++ host.debugError e))
  | .ok v =>
    match materialize program vm.memory.arenaSlab v with
    | none => vm.goto .crashed
    | some (.tuple [_, reply]) => vm.turnDone op (.ok reply)
    | some other =>
      vm.turnDone op (.error ("conc." ++ op.name ++
        ": handler must return a 2-tuple (new_state, reply), got " ++ host.debug other))

/-- The arm of `EffectCall`. -/
def effectCall (kindIdx opIdx arity : Nat) : Option Outcome :=
  if vm.memory.stack.length < arity then some (.quiet budget ((vm.withStack []).raise .stackUnderflow))
  else
    let slab := vm.memory.arenaSlab
    let popped := (vm.memory.stack.take arity).reverse
    let args :=
      if slab.isEmpty then some popped
      else popped.mapM (materialize program slab)
    let vm := vm.withStack (vm.memory.stack.drop arity)
    match args, program.constants[kindIdx]?, program.constants[opIdx]? with
    | some args, some (.str kind), some (.str op) =>
      let vm := { vm with natives := .effectCall :: vm.natives }
      match input.overrideEffect, kind, op with
      | some v, _, _ => some (.quiet budget (vm.goto (.replied (.ok v))))
      | none, "parser", "run" => some (.quiet budget (vm.runParserOp args))
      | none, "conc", op => vm.runConcOp host input budget op args
      | none, _, _ => some (.quiet budget (vm.goto (.replied input.dispatch)))
    | none, _, _ | _, none, _ => some (.quiet budget (vm.goto .crashed))
    | some _, some (.str _), none => some (.quiet budget (vm.goto .crashed))
    | some _, some (.str _), some _ =>
      some (.quiet budget (vm.raise (.typeMismatch "expected Str const for effect op")))
    | some _, some _, _ =>
      some (.quiet budget (vm.raise (.typeMismatch "expected Str const for effect kind")))

/-! ## The loop -/

/-- Put back what an instruction has worked on. -/
def refocus (frame : Frame) (frames : List Frame) (s : Focus) : Vm :=
  { vm with
    memory := s.memory
    frames := { frame with pc := s.pc, stackRecordBudgetRemaining := s.stackRecordBudgetRemaining } :: frames }

/-- Run an instruction that stays in its frame. -/
def execute (frame : Frame) (frames : List Frame) (exec : Exec Unit) : Vm :=
  match exec.run ⟨vm.memory, frame.pc + 1, frame.stackRecordBudgetRemaining⟩ with
  | .ok _ s => vm.refocus frame frames s
  | .error (.err e) s => (vm.refocus frame frames s).raise e
  | .error .panicked s => (vm.refocus frame frames s).goto .crashed

/-- One instruction. -/
def perform (frame : Frame) (frames : List Frame) (op : Op) : Option Outcome :=
  let advanced := { vm with frames := { frame with pc := frame.pc + 1 } :: frames }
  match op with
  | .call fnId arity => some (advanced.call program host input budget fnId arity)
  | .tailCall fnId arity => some (advanced.tailCall program host input budget fnId arity)
  | .callClosure arity => some (advanced.callClosure program budget arity)
  | .return => some (.quiet budget advanced.ret)
  | .listMap =>
    some (advanced.withList budget "ListMap" fun vm f items => .quiet budget (vm.mapNext f items []))
  | .listFilter =>
    some (advanced.withList budget "ListFilter" fun vm f items => .quiet budget (vm.filterNext f items []))
  | .sortByKey =>
    some (advanced.withList budget "SortByKey" fun vm f items => .quiet budget (vm.sortNext f items []))
  | .listFold => some (.quiet budget advanced.listFold)
  | .parallelMap => some (advanced.parallelMap input budget)
  | .effectCall kindIdx opIdx arity => advanced.effectCall program host input budget kindIdx opIdx arity
  | op =>
    let place : Place := ⟨frame.fnId, frame.localsStart, !vm.arenaScopeStarts.isEmpty⟩
    (op.exec? program host place frame.pc).map fun exec => .quiet budget (vm.execute frame frames exec)

/-- The instruction that comes next. -/
def fetch : Option (Frame × List Frame × Op) :=
  match vm.frames with
  | [] => none
  | frame :: frames => do
    let f ← program.functions[frame.fnId]?
    let op ← f.code[frame.pc]?
    some (frame, frames, op)

/-- A turn of the loop of `run_to`. -/
def dispatch : Option Outcome :=
  if vm.stepLimit < vm.steps then some (.quiet budget (vm.raise (.panic "step limit exceeded")))
  else
    let vm := { vm with steps := vm.steps + 1 }
    match vm.fetch program with
    | none => some (.quiet budget (vm.goto .crashed))
    | some (frame, frames, op) => vm.perform program host input budget frame frames op

/-! ## What waits for a call -/

/-- Go on with the result of a call, in the native that made it. -/
def afterCall (native : Native) (result : Except VmError Value) : Vm :=
  match native, result with
  | .listMap f rest out, .ok v => vm.mapNext f rest (out ++ [v])
  | .listFilter f item rest out, .ok (.bool keep) => vm.filterNext f rest (if keep then out ++ [item] else out)
  | .listFold f rest, .ok v => vm.foldNext f v rest
  | .sortByKey f item rest keyed, .ok key => vm.sortNext f rest (keyed ++ [(key, item)])
  | .listMap .., .error e | .listFilter .., .error e | .listFold .., .error e | .sortByKey .., .error e =>
    vm.raise e
  | .mapCalled _ np, .ok v => vm.goto (.parsed (.ok (v, np)))
  | .mapCalled pos _, .error e => vm.goto (.parsed (.error (pos, "map: closure failed: " ++ host.debugError e)))
  | .andThenCalled input np, .ok next => vm.goto (.parse input next np)
  | .andThenCalled _ np, .error e =>
    vm.goto (.parsed (.error (np, "and_then: closure failed: " ++ host.debugError e)))
  | .runActorTurn op, r => vm.afterHandler program host op r
  | _, _ => vm.goto .crashed

/-- The end of the arm of `EffectCall`. -/
def afterEffect (result : Except String Value) : Vm :=
  match result with
  | .error e => vm.raise (.effect e)
  | .ok v =>
    match input.takeExit with
    | some code => vm.raise (.processExit code)
    | none => vm.resume v

/-- **One step**; `none` where the machine waits, or is not running. -/
def step : Option Outcome :=
  match vm.control with
  | .idle | .crashed => none
  | .run => vm.dispatch program host input budget
  | .invokeClosure (.closure fnId _ captures) args =>
    some (vm.invoke program host input budget fnId (captures ++ args))
  | .invokeClosure other _ =>
    some (.quiet budget (vm.goto (.finished (.error
      (.typeMismatch ⟨"invoke_closure_value: not a closure: ", [other]⟩)))))
  | .invoke fnId args => some (vm.invoke program host input budget fnId args)
  | .parse bytes node pos => some (.quiet budget (vm.parse host bytes node pos))
  | .finished result =>
    match vm.natives with
    -- it is for who drives the machine
    | [] | [.parMapWorker] => none
    | native :: natives => some (.quiet budget ({ vm with natives := natives }.afterCall program host native result))
  | .parsed result =>
    match vm.natives with
    | [] => some (.quiet budget (vm.goto .crashed))
    | native :: natives => some (.quiet budget ({ vm with natives := natives }.afterParse host native result))
  | .replied result =>
    match vm.natives with
    | .effectCall :: natives => some (.quiet budget ({ vm with natives := natives }.afterEffect input result))
    -- on a worker of `ask_async`: the reply goes to its slot
    | [] => none
    | _ => some (.quiet budget (vm.goto .crashed))
  | .awaitTurn op msg =>
    input.turn.map fun (handler, state) =>
      .quiet budget (vm.await (.runActorTurn op) (.invokeClosure handler [state, msg]))
  | .join _ => input.answers.map fun answers => .quiet budget (vm.collect answers [])

end Vm

end LexLang.Machine
