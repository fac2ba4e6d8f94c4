/-
# LexLang.Actor.Protocol — actors, their tickets and the threads that send to them

`run_conc_op`, `run_actor_turn`, `ActorTurn` and `skip_actor_turn` (`lex-bytecode/src/vm/mod.rs`) as a step
relation: any number of threads, each with a stack of the messages it is busy with, since a handler may send
messages of its own. A step is what happens between two points where another thread may get in: the actor's
mutex is held for one step at a time.

What a handler does is user code. `Behaves closure state msg result` says that a call may end so; whatever
it sends on the way are steps of their own.
-/
import Mathlib.Logic.Function.Basic
import Mathlib.Logic.Relation

namespace LexLang.Actor

/-! ## Values -/

/-- The values that the operations look into; the rest is data of some type. -/
inductive Value (D : Type)
  | unit
  | tuple (items : List (Value D))
  | closure (code : D)
  | actor (cell : Nat)
  | askHandle (slot : Nat)
  | data (value : D)

variable {D : Type}

/-- How the call of a handler ends. -/
inductive Invoked (D : Type)
  | ok (value : Value D)
  | err (reason : String)
  | panicked

/-- The state that is stored: a handler has to return a pair. -/
def Invoked.newState : Invoked D → Option (Value D)
  | .ok (.tuple [newState, _]) => some newState
  | _ => none

inductive ConcOp
  | ask
  | tell
  | askAsync

/-- Why a message has no reply. -/
inductive Failure (D : Type)
  | handlerError (reason : String)
  -- the handler has to return `(new_state, reply)`
  | notAPair (value : Value D)
  | panicked

/-- The reply of the pair, or what went wrong. -/
def Invoked.reply : Invoked D → Except (Failure D) (Value D)
  | .ok (.tuple [_, reply]) => .ok reply
  | .ok value => .error (.notAPair value)
  | .err reason => .error (.handlerError reason)
  | .panicked => .error .panicked

/-! ## Actors -/

inductive ActorHandler (D : Type)
  | lex (closure : Value D)
  -- a bridge into the host: it has no state here, and its messages take no turn
  | native

/-- How the handling of a message ended. -/
inductive Entry (D : Type)
  | handled (ticket : Nat) (msg state : Value D) (result : Invoked D)
  -- no worker could be started for it
  | skipped (ticket : Nat)

def Entry.ticket : Entry D → Nat
  | .handled ticket _ _ _ => ticket
  | .skipped ticket => ticket

/-- An actor, with what happened to it so far: no step reads the last four fields. -/
structure ActorCell (D : Type) where
  state : Value D
  handler : ActorHandler D
  nextTicket : Nat
  serving : Nat
  initial : Value D
  -- the messages, in the order of their tickets
  sent : List (Value D)
  -- the tickets whose handler was called
  begun : List Nat
  log : List (Entry D)

def ActorCell.new (state : Value D) (handler : ActorHandler D) : ActorCell D :=
  { state, handler, nextTicket := 0, serving := 0, initial := state, sent := [], begun := [], log := [] }

/-- Take a ticket for a message. -/
def ActorCell.issue (cell : ActorCell D) (msg : Value D) : ActorCell D :=
  { cell with nextTicket := cell.nextTicket + 1, sent := cell.sent ++ [msg] }

/-- The handler is called for the ticket that is served. -/
def ActorCell.call (cell : ActorCell D) : ActorCell D := { cell with begun := cell.begun ++ [cell.serving] }

/-- The turn is over: store the new state, if there is one, and serve the next ticket. -/
def ActorCell.advance (cell : ActorCell D) (newState : Option (Value D)) (entry : Entry D) : ActorCell D :=
  { cell with
    state := newState.getD cell.state
    serving := cell.serving + 1
    log := cell.log ++ [entry] }

/-! ## Threads -/

/-- How far a thread is with a message it took a ticket for. -/
inductive Phase (D : Type)
  -- `ask_async`, before the worker is started
  | starting
  -- on the worker, before `run_actor_turn`
  | setup
  -- in `run_actor_turn`, until the ticket is served
  | waiting
  -- the handler runs, on the state that was read
  | handling (state : Value D)
  -- in `skip_actor_turn`
  | skipping
  -- the turn is over, the handle is not filled yet
  | replying (reply : Except (Failure D) (Value D))

structure Task (D : Type) where
  cell : Nat
  ticket : Nat
  closure : Value D
  msg : Value D
  op : ConcOp
  -- the slot of an `AskHandle` that this thread completes at the end
  slot : Option Nat
  -- a worker catches a panic of the handler
  worker : Bool
  phase : Phase D

/-- A thread runs user code: it has no message in hand, or it is in the handler of the last one. -/
def Free (stack : List (Task D)) : Prop :=
  ∀ task, stack.getLast? = some task → ∃ state, task.phase = .handling state

structure State (D : Type) where
  cells : Nat → Option (ActorCell D)
  -- the message in hand comes last
  threads : Nat → List (Task D)
  -- whether a handle was made, and its reply
  slots : Nat → Option (Option (Except (Failure D) (Value D)))

/-- What is left of a message after its turn: the handle, unless a panic goes on through the thread. -/
def Task.rest (task : Task D) (result : Invoked D) : List (Task D) :=
  match task.slot, task.worker, result with
  | none, _, _ => []
  | some _, false, .panicked => []
  | some _, _, result => [{ task with phase := .replying result.reply }]

namespace State

def setCell (s : State D) (c : Nat) (cell : ActorCell D) : State D :=
  { s with cells := Function.update s.cells c (some cell) }

def setThread (s : State D) (τ : Nat) (stack : List (Task D)) : State D :=
  { s with threads := Function.update s.threads τ stack }

/-- A new handle. -/
def makeSlot (s : State D) (slot : Nat) : State D :=
  { s with slots := Function.update s.slots slot (some none) }

/-- Fill the slot, unless it is full. -/
def complete (s : State D) (slot : Nat) (reply : Except (Failure D) (Value D)) : State D :=
  match s.slots slot with
  | some none => { s with slots := Function.update s.slots slot (some (some reply)) }
  | _ => s

def initial (D : Type) : State D where
  cells := fun _ => none
  threads := fun _ => []
  slots := fun _ => none

end State

/-! ## Steps -/

variable (Behaves : Value D → Value D → Value D → Invoked D → Prop)

/-- **What one thread does next.** -/
inductive Step : State D → State D → Prop
  /-- `conc.spawn`. -/
  | spawn {s τ c} (init : Value D) (code : D) : Free (s.threads τ) → s.cells c = none →
      Step s (s.setCell c (.new init (.lex (.closure code))))
  /-- The host makes an actor of a bridge. -/
  | bridge {s c} (init : Value D) : s.cells c = none → Step s (s.setCell c (.new init .native))
  /-- A message for a bridge goes out at once; an `ask_async` comes back as a full handle. -/
  | native {s τ c cell} (op : ConcOp) (slot : Nat) (reply : Except (Failure D) (Value D)) :
      Free (s.threads τ) → s.cells c = some cell → cell.handler = .native → s.slots slot = none →
      Step s (match op with | .askAsync => (s.makeSlot slot).complete slot reply | _ => s)
  /-- `ask`, `tell` and `ask_async` take a ticket on the sending thread. -/
  | send {s τ c cell closure} (op : ConcOp) (msg : Value D) : Free (s.threads τ) →
      s.cells c = some cell → cell.handler = .lex closure →
      Step s ((s.setCell c (cell.issue msg)).setThread τ (s.threads τ ++
        [⟨c, cell.nextTicket, closure, msg, op, none, false,
          match op with | .askAsync => .starting | _ => .waiting⟩]))
  /-- There is no handler for a worker: the message is run inline. -/
  | inline {s τ stack task slot} : s.threads τ = stack ++ [task] → task.phase = .starting →
      s.slots slot = none →
      Step s ((s.makeSlot slot).setThread τ (stack ++ [{ task with slot := some slot, phase := .waiting }]))
  /-- The worker takes the message over. -/
  | spawned {s τ stack task slot w} : s.threads τ = stack ++ [task] → task.phase = .starting →
      s.slots slot = none → s.threads w = [] →
      Step s (((s.makeSlot slot).setThread τ stack).setThread w
        [{ task with slot := some slot, worker := true, phase := .setup }])
  /-- No worker could be started. -/
  | notSpawned {s τ stack task} : s.threads τ = stack ++ [task] → task.phase = .starting →
      Step s (s.setThread τ (stack ++ [{ task with phase := .skipping }]))
  | entered {s τ stack task} : s.threads τ = stack ++ [task] → task.phase = .setup →
      Step s (s.setThread τ (stack ++ [{ task with phase := .waiting }]))
  /-- The worker panics before its turn. -/
  | setupPanicked {s τ stack task} : s.threads τ = stack ++ [task] → task.phase = .setup →
      Step s (s.setThread τ (stack ++ [{ task with phase := .skipping }]))
  /-- The ticket is served: read the state, release the mutex and call the handler. -/
  | begin {s τ stack task cell} : s.threads τ = stack ++ [task] → task.phase = .waiting →
      s.cells task.cell = some cell → cell.serving = task.ticket →
      Step s ((s.setCell task.cell cell.call).setThread τ
        (stack ++ [{ task with phase := .handling cell.state }]))
  /-- The handler has ended, in whatever way: the turn is dropped. -/
  | finish {s τ stack task cell state} (result : Invoked D) : s.threads τ = stack ++ [task] →
      task.phase = .handling state → s.cells task.cell = some cell →
      Behaves task.closure state task.msg result →
      Step s ((s.setCell task.cell (cell.advance result.newState
        (.handled task.ticket task.msg state result))).setThread τ (stack ++ task.rest result))
  | skip {s τ stack task cell} : s.threads τ = stack ++ [task] → task.phase = .skipping →
      s.cells task.cell = some cell → cell.serving = task.ticket →
      Step s ((s.setCell task.cell (cell.advance none (.skipped task.ticket))).setThread τ
        (stack ++ task.rest .panicked))
  | replied {s τ stack task slot reply} : s.threads τ = stack ++ [task] →
      task.phase = .replying reply → task.slot = some slot →
      Step s ((s.complete slot reply).setThread τ stack)
  /-- `conc.await` gets through once the slot is full, and leaves the reply in it. -/
  | await {s τ slot reply} : Free (s.threads τ) →
      s.slots slot = some (some reply) → Step s s
  /-- A call with other arguments is an error. -/
  | rejected {s τ} : Free (s.threads τ) → Step s s

/-- The states of a run, from one without actors on. -/
def Reachable (s : State D) : Prop := Relation.ReflTransGen (Step Behaves) (.initial D) s

end LexLang.Actor
