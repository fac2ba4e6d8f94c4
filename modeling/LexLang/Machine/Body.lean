/-
# LexLang.Machine.Body — the run of one function's code

What one frame does, seen from the rest of the machine. The code works on the frame's slots, the operand stack
and the two slabs by itself. A call, an effect or a native that calls is asked for, and answered by whatever the
rest makes of the machine's memory, short of the frame's own slots and those below it.
-/
import LexLang.Machine.Step
import LexLang.Transition.Observed

namespace LexLang.Machine

open LexLang.Transition

/-! ## What is seen of a frame -/

/-- The memory without the slots of the frame. -/
def Memory.hide (place : Place) (m : Memory) : Memory :=
  { m with localsStorage := m.localsStorage.take place.localsStart }

/-- How the run of a frame ends. -/
inductive Finish
  -- `Return`, or a call in the place of the frame
  | left (op : Op) (memory : Memory)
  | error (e : VmError)
  | crashed

/-- A frame is not there any more behind the instruction. -/
def Op.leaves : Op → Bool
  | .return | .tailCall .. => true
  | _ => false

abbrev Asked := Op × Memory

/-! ## The system -/

section Body

variable (program : Program) (host : Host) (place : Place) (code : List Op)

/-- What one instruction makes of the frame, by what it is. -/
def turnOf (op : Op) (s : Focus) : Turn Focus Asked Finish :=
  match op.exec? program host place s.pc with
  | none =>
    if op.leaves then .done (.left op (s.memory.hide place))
    else .ask (op, s.memory.hide place) { s with pc := s.pc + 1 }
  | some exec =>
    match exec.run { s with pc := s.pc + 1 } with
    | .ok _ s => .next s
    | .error (.err e) _ => .done (.error e)
    | .error .panicked _ => .done .crashed

/-- **One instruction.** -/
def turn (s : Focus) : Turn Focus Asked Finish :=
  match code[s.pc]? with
  | none => .done .crashed
  | some op => turnOf program host place op s

/-- The machine's memory is what the call has left, and the frame's slots are as they were. -/
def resume (s : Focus) (m : Memory) : Focus :=
  { s with memory := { m with localsStorage := s.memory.localsStorage } }

/-- **The code of a function in its frame.** -/
def body : Transition.System Focus Asked Memory Finish := ⟨turn program host place code, resume⟩

end Body

/-! ## In the machine -/

section Connection

variable {program : Program} {host : Host} {input : Input} {budget : Budget} {place : Place} {vm : Vm}
  {frame : Frame} {frames : List Frame} {op : Op} {s : Focus} {e : VmError}

/-- The frame as its code sees it. -/
def Vm.focus (vm : Vm) (frame : Frame) : Focus := ⟨vm.memory, frame.pc, frame.stackRecordBudgetRemaining⟩

/-- Where the frame stands. -/
def Vm.placeOf (vm : Vm) (frame : Frame) : Place :=
  ⟨frame.fnId, frame.localsStart, !vm.arenaScopeStarts.isEmpty⟩

theorem perform_exec {exec : Exec Unit} (h : op.exec? program host (vm.placeOf frame) frame.pc = some exec) :
    vm.perform program host input budget frame frames op = some (.quiet budget (vm.execute frame frames exec)) := by
  unfold Vm.perform
  dsimp only
  split
  case h_11 =>
    show Option.map _ (op.exec? program host (vm.placeOf frame) frame.pc) = _
    rw [h]
    rfl
  all_goals cases h

/-- The machine does what the frame's code does by itself. -/
theorem perform_next (h : turnOf program host (vm.placeOf frame) op (vm.focus frame) = .next s) :
    vm.perform program host input budget frame frames op = some (.quiet budget (vm.refocus frame frames s)) := by
  unfold turnOf at h
  split at h
  · split at h <;> exact nomatch h
  · rename_i exec hexec
    rw [perform_exec hexec]
    unfold Vm.execute
    split at h
    · rename_i s' hrun
      obtain rfl := Turn.next.inj h
      have hrun : exec.run ⟨vm.memory, frame.pc + 1, frame.stackRecordBudgetRemaining⟩ = .ok _ s' := hrun
      rw [hrun]
    · exact nomatch h
    · exact nomatch h

/-- An error of the frame's code is raised in the machine. -/
theorem perform_error (h : turnOf program host (vm.placeOf frame) op (vm.focus frame) = .done (.error e)) :
    ∃ s, vm.perform program host input budget frame frames op =
      some (.quiet budget ((vm.refocus frame frames s).raise e)) := by
  unfold turnOf at h
  split at h
  · split at h <;> exact nomatch h
  · rename_i exec hexec
    rw [perform_exec hexec]
    unfold Vm.execute
    split at h
    · exact nomatch h
    · rename_i e' s' hrun
      obtain rfl : e' = e := by
        injection h with h
        injection h
      have hrun : exec.run ⟨vm.memory, frame.pc + 1, frame.stackRecordBudgetRemaining⟩ = .error (.err e') s' :=
        hrun
      refine ⟨s', ?_⟩
      rw [hrun]
    · exact nomatch h

end Connection

end LexLang.Machine
