/-
# LexLang.Machine.Threads — the machines of a process

Any number of threads, each with a machine of its own over one program and one budget: the machines that the
host starts and calls (`Vm::call`, `invoke_closure_value`), the workers of `list.par_map`
(`lex-bytecode/src/vm/native_list.rs`) and of `conc.ask_async`. One step is one step of one machine, or of
what drives it. The log tells, in order, what was charged and what was called; no step reads it.
-/
import LexLang.Machine.Step

namespace LexLang.Machine

open Option

inductive Job
  -- called by the host
  | host
  -- one message of an actor
  | ask
  -- a share of the items of a `par_map`, with the answers so far
  | parMap (f : Value) (items : List (Nat × Value)) (current : Option Nat)
      (answers : List (Nat × Except String Value))

structure Thread where
  vm : Vm
  job : Job
  -- the threads that this one waits for
  workers : List Nat

namespace Thread

def withVm (thread : Thread) (vm : Vm) : Thread := { thread with vm := vm }

/-- A worker that has run to the end of its items, or is gone. -/
def isDone (thread : Thread) : Bool :=
  match thread.job, thread.vm.control with
  | _, .crashed => true
  | .parMap _ [] none _, .idle => true
  | _, _ => false

def answers (thread : Thread) : List (Nat × Except String Value) :=
  match thread.job with
  | .parMap _ _ _ answers => answers
  | _ => []

end Thread

structure System where
  budget : Budget
  threads : List Thread
  log : List Event

namespace System

def start (ceiling : Option Nat) : System := ⟨.start ceiling, [], []⟩

variable (s : System)

def set (i : Nat) (thread : Thread) : System := { s with threads := s.threads.set i thread }

/-- What the workers of a thread have answered, when all of them are done. -/
def answersFor (thread : Thread) : Option (List Answer) :=
  match thread.vm.control with
  | .join count =>
    let workers := thread.workers.filterMap (s.threads[·]?)
    if workers.all Thread.isDone then
      some ((List.range count).map fun k => (workers.flatMap Thread.answers).lookup k)
    else none
  | _ => none

/-- Every `n`-th item, with its place. -/
def bucket (items : List Value) (n w : Nat) : List (Nat × Value) :=
  (items.zipIdx.filter fun item => item.2 % n = w).map fun item => (item.2, item.1)

/-- The threads of a spawn. -/
def spawnedThreads (stepLimit : Nat) : Option Spawn → List Thread
  | none => []
  | some (.parMap f items workers) =>
    let n := min (max workers 1) items.length
    (List.range n).map fun w => ⟨.new stepLimit, .parMap f (bucket items n w) none [], []⟩
  | some (.askAsync msg) => [⟨(Vm.new stepLimit).goto (.awaitTurn .ask msg), .ask, []⟩]

/-- A thread's machine has taken a step. -/
def advance (i : Nat) (thread : Thread) (outcome : Outcome) : System :=
  let spawned := spawnedThreads outcome.vm.stepLimit outcome.spawned
  let workers := (List.range spawned.length).map (s.threads.length + ·)
  { budget := outcome.budget
    threads :=
      s.threads.set i { thread with vm := outcome.vm, workers := if spawned = [] then thread.workers else workers }
        ++ spawned
    log := s.log ++ outcome.events }

end System

/-- What drives a machine from outside of it. -/
inductive Drives (host : Host) : Thread → Thread → Prop
  /-- The host calls a function, or a closure that it was given. -/
  | invoke {thread : Thread} (fnId : Nat) (args : List Value) (hjob : thread.job = .host)
      (hidle : thread.vm.control = .idle) :
      Drives host thread (thread.withVm (thread.vm.goto (.invoke fnId args)))
  | invokeClosure {thread : Thread} (f : Value) (args : List Value) (hjob : thread.job = .host)
      (hidle : thread.vm.control = .idle) :
      Drives host thread (thread.withVm (thread.vm.goto (.invokeClosure f args)))
  /-- The host takes the result, whatever it is, and keeps the machine. -/
  | take {thread : Thread} (result : Except VmError Value) (hjob : thread.job = .host)
      (hcontrol : thread.vm.control = .finished result) (hnatives : thread.vm.natives = []) :
      Drives host thread (thread.withVm (thread.vm.goto .idle))
  | enterRequestScope {thread : Thread} (hjob : thread.job = .host) (hidle : thread.vm.control = .idle) :
      Drives host thread (thread.withVm
        { thread.vm with arenaScopeStarts := thread.vm.memory.arenaSlab.length :: thread.vm.arenaScopeStarts })
  | exitRequestScope {thread : Thread} (start : Nat) (starts : List Nat) (hjob : thread.job = .host)
      (hidle : thread.vm.control = .idle) (hstarts : thread.vm.arenaScopeStarts = start :: starts) :
      Drives host thread (thread.withVm
        { thread.vm with
          arenaScopeStarts := starts
          memory := { thread.vm.memory with arenaSlab := thread.vm.memory.arenaSlab.take start } })
  /-- A worker goes on to its next item, on the same machine. -/
  | item {thread : Thread} {f : Value} {k : Nat} {v : Value} {items : List (Nat × Value)}
      {answers : List (Nat × Except String Value)} (hjob : thread.job = .parMap f ((k, v) :: items) none answers)
      (hidle : thread.vm.control = .idle) :
      Drives host thread
        ⟨thread.vm.await .parMapWorker (.invokeClosure f [v]), .parMap f items (some k) answers, thread.workers⟩
  | answer {thread : Thread} {f : Value} {k : Nat} {items : List (Nat × Value)}
      {answers : List (Nat × Except String Value)} (result : Except VmError Value)
      (hjob : thread.job = .parMap f items (some k) answers)
      (hcontrol : thread.vm.control = .finished result) (hnatives : thread.vm.natives = [.parMapWorker]) :
      Drives host thread
        ⟨{ thread.vm with natives := [], control := .idle }, .parMap f items none (answers ++ [(k, result.mapError host.debugError)]),
          thread.workers⟩

/-- **A step of the process.** -/
inductive System.Step (program : Program) (host : Host) (P : Vm → Input → Prop) : System → System → Prop
  /-- One step of one machine, which `P` holds of. -/
  | machine {s : System} {i : Nat} {thread : Thread} {input : Input} {outcome : Outcome}
      (hthread : s.threads[i]? = some thread) (hanswers : input.answers = s.answersFor thread)
      (hstep : thread.vm.step program host input s.budget = some outcome) (hp : P thread.vm input) :
      System.Step program host P s (s.advance i thread outcome)
  | drive {s : System} {i : Nat} {thread thread' : Thread} (hthread : s.threads[i]? = some thread)
      (hdrives : Drives host thread thread') : System.Step program host P s (s.set i thread')
  /-- The host starts a machine. -/
  | new {s : System} (stepLimit : Nat) :
      System.Step program host P s { s with threads := s.threads ++ [⟨.new stepLimit, .host, []⟩] }

/-- **The systems of a run** whose machine steps all satisfy `P`. -/
inductive Reachable (program : Program) (host : Host) (ceiling : Option Nat) (P : Vm → Input → Prop) :
    System → Prop
  | start : Reachable program host ceiling P (.start ceiling)
  | step {s t : System} (hs : Reachable program host ceiling P s) (hstep : System.Step program host P s t) :
      Reachable program host ceiling P t

/-! ## Runs of one thread -/

namespace System

variable (program : Program) (host : Host) (p : Vm → Input → Bool) (input : Input)

/-- A step of the machine of a thread, which `p` holds of. -/
def turn (i : Nat) (s : System) : Option System := do
  let thread ← s.threads[i]?
  let input := { input with answers := s.answersFor thread }
  if p thread.vm input then
    let outcome ← thread.vm.step program host input s.budget
    some (s.advance i thread outcome)
  else none

def turns (i : Nat) : Nat → System → Option System
  | 0, s => some s
  | n + 1, s => (s.turn program host p input i).bind (turns i n)

end System

section Turns

variable {program : Program} {host : Host} {p : Vm → Input → Bool} {input : Input} {ceiling : Option Nat}
  {P : Vm → Input → Prop}

theorem Reachable.turns {i n : Nat} {s t : System} (hp : ∀ vm input, p vm input → P vm input)
    (hs : Reachable program host ceiling P s) (h : s.turns program host p input i n = some t) :
    Reachable program host ceiling P t := by
  induction n generalizing s with
  | zero => exact some.inj h ▸ hs
  | succ n ih =>
    obtain ⟨u, hu, h⟩ := bind_eq_some_iff.mp h
    obtain ⟨thread, hthread, hu⟩ := bind_eq_some_iff.mp hu
    dsimp only at hu
    split at hu
    · rename_i hpass
      obtain ⟨outcome, hstep, hu⟩ := bind_eq_some_iff.mp hu
      refine ih ?_ h
      rw [← some.inj hu]
      exact hs.step (.machine hthread rfl hstep (hp _ _ hpass))
    · exact nomatch hu

end Turns

end LexLang.Machine
