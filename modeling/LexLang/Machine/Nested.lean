/-
# LexLang.Machine.Nested — calls that fail inside of a machine

A native that calls back into the machine gets a result or an error, and may go on after an error.
An error leaves `run_to` from wherever it arose, and nothing is popped on the way.

The invariant is about depths: every `run_to` on the host's stack has a base below the number of frames, and
the bases grow inwards. A success leaves the loop with exactly its base, an error with more.
-/
import LexLang.Machine.Accounting
import LexLang.Machine.Walk

namespace LexLang.Machine

open List Option

/-! ## Depths -/

/-- The bases of the loops that are under way, the innermost first. -/
def bases : List Native → List Nat
  | [] => []
  | .runTo base :: natives => base :: bases natives
  | _ :: natives => bases natives

theorem bases_append (ns ms : List Native) : bases (ns ++ ms) = bases ns ++ bases ms := by
  induction ns with
  | nil => rfl
  | cons n ns ih => cases n <;> simp [bases, ih]

variable {native : Native}

theorem bases_of_isPart (h : native.isPart = true) : bases [native] = [] := by
  cases native with
  | runTo | effectCall => cases h
  | _ => rfl

/-- **What one step does to the depths.** -/
inductive Moves (vm vm' : Vm) : Prop
  | crashed (hcontrol : vm'.control = .crashed)
  /-- A native comes to its next part. -/
  | stay (popped pushed rest : List Native) (hpopped : bases popped = []) (hpushed : bases pushed = [])
      (hnatives : vm.natives = popped ++ rest) (hnatives' : vm'.natives = pushed ++ rest)
      (hframes : vm'.frames.length = vm.frames.length)
  | call (hnatives' : vm'.natives = vm.natives) (hframes : vm'.frames.length = vm.frames.length + 1)
  | enter (hnatives' : vm'.natives = .runTo vm.frames.length :: vm.natives)
      (hframes : vm'.frames.length = vm.frames.length + 1)
  | ret (base : Nat) (rest : List Native) (hnatives : vm.natives = .runTo base :: rest)
      (hnatives' : vm'.natives = vm.natives) (hframes : vm'.frames.length + 1 = vm.frames.length)
      (hbase : base < vm'.frames.length)
  | succeed (base : Nat) (rest : List Native) (v : Value) (hnatives : vm.natives = .runTo base :: rest)
      (hnatives' : vm'.natives = rest) (hframes : vm'.frames.length + 1 = vm.frames.length)
      (hbase : vm'.frames.length ≤ base) (hcontrol : vm'.control = .finished (.ok v))
  | fail (popped : List Native) (base : Nat) (rest : List Native) (e : VmError) (hpopped : bases popped = [])
      (hnatives : vm.natives = popped ++ .runTo base :: rest) (hnatives' : vm'.natives = rest)
      (hframes : vm'.frames.length = vm.frames.length) (hcontrol : vm'.control = .finished (.error e))

/-! ## What is left behind -/

/-- Everything that the code after a failed call works on is as it was before. -/
structure Vm.Restored (vm vm' : Vm) : Prop where
  frames : vm'.frames = vm.frames
  stack : vm'.memory.stack = vm.memory.stack
  localsStorage : vm'.memory.localsStorage = vm.memory.localsStorage
  stackRecordArena : vm'.memory.stackRecordArena = vm.memory.stackRecordArena
  arenaScopeStarts : vm'.arenaScopeStarts = vm.arenaScopeStarts

/-- **The call is refused in front of it**: by its arity, a predicate, the hook, or for want of a frame, where it
has no slots that would stay. -/
def Attempt.RefusedAtOnce (host : Host) (input : Input) (vm : Vm) (a : Attempt) (f : Function) : Prop :=
  a.args.length ≠ f.arity ∨ ¬ a.Passes host f ∨
  (∃ answer e, input.hook = some answer ∧ answer.result = .error e) ∨
  (maxCallDepth ≤ vm.frames.length ∧ f.frameSize = 0)

/-- **How an invocation begins.** -/
inductive Begins (host : Host) (input : Input) (vm : Vm) (a : Attempt) (f : Function) (vm' : Vm) : Prop
  | crashed (hcontrol : vm'.control = .crashed)
  /-- The hook answers it. -/
  | answered (v : Value) (hnatives : vm'.natives = vm.natives) (hframes : vm'.frames = vm.frames)
      (hcontrol : vm'.control = .finished (.ok v))
  | refused (e : VmError) (hrefused : a.RefusedAtOnce host input vm f) (hrestored : vm.Restored vm')
      (hnatives : vm'.natives = vm.natives) (hcontrol : vm'.control = .finished (.error e))
  /-- There is no room for its frame, and its slots stay. -/
  | cramped (e : VmError) (hrefused : ¬ a.RefusedAtOnce host input vm f) (hrestored : ¬ vm.Restored vm')
      (hnatives : vm'.natives = vm.natives) (hframes : vm'.frames = vm.frames)
      (hcontrol : vm'.control = .finished (.error e))
  | started (hrefused : ¬ a.RefusedAtOnce host input vm f)
      (hnatives : vm'.natives = .runTo vm.frames.length :: vm.natives)
      (hframes : vm'.frames.length = vm.frames.length + 1)

/-! ## The depths of one step -/

/-- `u` is `vm` between two parts of a native. -/
def Beside (vm u : Vm) : Prop :=
  ∃ popped pushed rest, bases popped = [] ∧ bases pushed = [] ∧ vm.natives = popped ++ rest ∧
    u.natives = pushed ++ rest ∧ u.frames.length = vm.frames.length

@[simp]
theorem Vm.natives_memoize (vm : Vm) (key : Option (Nat × Nat)) (v : Value) :
    (vm.memoize key v).natives = vm.natives := by
  cases key <;> rfl

@[simp]
theorem Vm.frames_memoize (vm : Vm) (key : Option (Nat × Nat)) (v : Value) :
    (vm.memoize key v).frames = vm.frames := by
  cases key <;> rfl

variable {fnId : Nat} {args : List Value}

section Moves

variable {program : Program} {host : Host} {input : Input} {budget : Budget} {vm vm' u : Vm} {o : Outcome}
  {a : Attempt} {f : Function}

theorem Beside.of_eq (hnatives : u.natives = vm.natives) (hframes : u.frames.length = vm.frames.length) :
    Beside vm u := ⟨[], [], vm.natives, rfl, rfl, rfl, hnatives, hframes⟩

theorem beside_of_cons {natives : List Native} (hnative : bases [native] = [])
    (h : vm.natives = native :: natives) : Beside vm { vm with natives := natives } :=
  ⟨[native], [], natives, hnative, rfl, h, rfl, rfl⟩

namespace Beside

variable (h : Beside vm u)
include h

theorem push (hnative : bases [native] = []) : Beside vm { u with natives := native :: u.natives } := by
  obtain ⟨popped, pushed, rest, hpopped, hpushed, hnatives, hnatives', hframes⟩ := h
  refine ⟨popped, native :: pushed, rest, hpopped, ?_, hnatives, ?_, hframes⟩
  · rw [← singleton_append, bases_append, hnative, hpushed, nil_append]
  · show native :: u.natives = _
    rw [hnatives', cons_append]

theorem raise (e : VmError) : Moves vm (u.raise e) := by
  obtain ⟨popped, pushed, rest, hpopped, hpushed, hnatives, hnatives', hframes⟩ := h
  unfold Vm.raise Vm.leave
  split
  · rename_i base natives hu
    rw [hu] at hnatives'
    -- a loop is not among the parts of a native
    match pushed with
    | [] =>
      obtain rfl : .runTo base :: natives = rest := hnatives'
      exact .fail popped base natives e hpopped hnatives rfl hframes rfl
    | native :: pushed =>
      obtain rfl : .runTo base = native := head_eq_of_cons_eq hnatives'
      exact nomatch hpushed
  · exact .crashed rfl

theorem goto (control : Control) : Moves vm (u.goto control) := by
  obtain ⟨popped, pushed, rest, hpopped, hpushed, hnatives, hnatives', hframes⟩ := h
  exact .stay popped pushed rest hpopped hpushed hnatives hnatives' hframes

theorem resume (v : Value) : Moves vm (u.resume v) := by
  obtain ⟨popped, pushed, rest, hpopped, hpushed, hnatives, hnatives', hframes⟩ := h
  exact .stay popped pushed rest hpopped hpushed hnatives hnatives' hframes

theorem await (native : Native) (control : Control) (hnative : bases [native] = []) :
    Moves vm (u.await native control) := (h.push hnative).goto control

theorem withStack (stack : List Value) : Beside vm (u.withStack stack) := h

omit h in
theorem crash (_ : Beside vm u) : Moves vm (u.goto .crashed) := .crashed rfl

omit h in
/-- **A native goes on beside the loops**, whatever it does next. -/
theorem walk (vm : Vm) : Walk (Beside vm) (Beside vm) (Moves vm) where
  withStack stack h := h.withStack stack
  withSteps _ h := h
  join _ h := h.goto _
  resume v h := h.resume v
  raise e h := h.raise e
  awaitOnLoop hpart _ _ _ h := h.await _ _ (bases_of_isPart hpart)
  crash _ := .crashed rfl
  goto _ h := h.goto _
  await hpart _ _ h := h.await _ _ (bases_of_isPart hpart)
  awaitCall hpart _ _ _ h := h.await _ _ (bases_of_isPart hpart)

/-! ### Calls -/

theorem charge {next : Budget → Outcome}
    (hnext : ∀ b, Moves vm (next b).vm) : Moves vm (charge budget fnId f u next).vm := by
  unfold Machine.charge
  dsimp only
  split
  · exact hnext _
  · split
    · exact h.raise _
    · exact hnext _

theorem checked {arg : Nat → Option Value} {next : Outcome}
    (hnext : Moves vm next.vm) : Moves vm (checked host budget f arg u next).vm := by
  unfold Machine.checked
  split
  · exact hnext
  · exact h.raise _
  · exact h.crash

theorem hooked {answered : Vm → Value → Outcome} {declined : Vm → Outcome}
    (hanswered : ∀ steps v, Moves vm (answered { u with steps } v).vm)
    (hdeclined : ∀ steps, Moves vm (declined { u with steps }).vm) :
    Moves vm (hooked input budget u answered declined).vm := by
  unfold Machine.hooked
  split
  · exact hdeclined u.steps
  · rename_i answer hhook
    split
    · exact Beside.raise (u := { u with steps := answer.steps }) h _
    · exact hanswered _ _
    · exact hdeclined _

end Beside

/-! ### Frames -/

variable (budget) in
/-- A frame is pushed, or there is no room for it, where its slots stay behind. -/
theorem enter_cases (route : Route) (fnId : Nat) (f : Function) (args : List Value)
    (key : Option (Nat × Nat)) (u : Vm) : (enter budget route fnId f args key u).vm = u.goto .crashed ∨
    (f.frameSize ≥ args.length ∧ maxCallDepth ≤ u.frames.length ∧ (enter budget route fnId f args key u).vm =
        (u.onLocals (· ++ frameSlots f args)).raise (.callStackOverflow maxCallDepth)) ∨
    ∃ frame memory, u.frames.length < maxCallDepth ∧ (enter budget route fnId f args key u).vm =
      { u with frames := frame :: u.frames, memory, control := .run } := by
  unfold enter
  split
  · exact .inl rfl
  · rename_i hsize
    split
    · rename_i hfull
      exact .inr (.inl ⟨Nat.le_of_not_lt hsize, hfull, rfl⟩)
    · rename_i hfull
      exact .inr (.inr ⟨_, _, Nat.lt_of_not_le hfull, rfl⟩)

variable {key : Option (Nat × Nat)} {route : Route} {below : List Value}

theorem moves_yield (hnatives : u.natives = vm.natives) (hframes : u.frames.length + 1 = vm.frames.length)
    (v : Value) : Moves vm (u.yield v) := by
  unfold Vm.yield
  split
  · rename_i base rest hu
    split
    · rename_i hbase
      refine .succeed base rest v (hnatives ▸ hu) ?_ ?_ ?_ ?_
      all_goals
        unfold Vm.leave
        rw [hu]
      · exact hframes
      · exact hbase
    · rename_i hbase
      exact .ret base rest (hnatives ▸ hu) hnatives hframes (Nat.lt_of_not_le hbase)
  · exact .crashed rfl

section Level

variable (hnatives : u.natives = vm.natives) (hframes : u.frames.length = vm.frames.length)
include hnatives hframes

theorem moves_enter : Moves vm (enter budget route fnId f args key u).vm := by
  have h : Beside vm u := .of_eq hnatives hframes
  obtain hvm | ⟨-, -, hvm⟩ | ⟨frame, memory, -, hvm⟩ :=
    enter_cases budget route fnId f args key u
  · rw [hvm]
    exact h.crash
  · rw [hvm]
    exact Beside.raise (u := u.onLocals _) h _
  · rw [hvm]
    refine .call hnatives ?_
    show u.frames.length + 1 = _
    omega

theorem moves_collapse (v : Value) : Moves vm (u.collapse v) := by
  unfold Vm.collapse
  split
  · exact .crashed rfl
  · rename_i frame frames hu
    rw [hu] at hframes
    apply moves_yield
    · exact hnatives
    · exact hframes

theorem moves_ret : Moves vm u.ret := by
  unfold Vm.ret
  split
  · exact Beside.raise (.of_eq hnatives hframes) _
  · exact .crashed rfl
  · rename_i v stack frame frames hstack hu
    rw [hu] at hframes
    apply moves_yield
    · rw [Vm.natives_memoize]
      exact hnatives
    · rw [Vm.frames_memoize]
      exact hframes

theorem moves_reuse : Moves vm (u.reuse budget fnId f args below).vm := by
  unfold Vm.reuse
  split
  · exact .crashed rfl
  · rename_i frame frames hu
    rw [hu] at hframes
    split
    · exact .crashed rfl
    · exact .stay [] [] vm.natives rfl rfl rfl hnatives hframes

/-! ### The instructions that call -/

theorem moves_callMissed : Moves vm (u.callMissed input budget fnId f args below key).vm := by
  have h : Beside vm u := .of_eq hnatives hframes
  refine h.hooked (fun steps v => ?_) fun steps => moves_enter hnatives hframes
  refine .stay [] [] vm.natives rfl rfl rfl ?_ ?_
  · show (Vm.memoize _ key v).natives = _
    rw [Vm.natives_memoize]
    exact hnatives
  · show (Vm.memoize _ key v).frames.length = _
    rw [Vm.frames_memoize]
    exact hframes

theorem moves_call (fnId arity : Nat) : Moves vm (u.call program host input budget fnId arity).vm := by
  have h : Beside vm u := .of_eq hnatives hframes
  unfold Vm.call
  split
  · exact h.crash
  · split
    · exact h.crash
    · refine h.charge fun b => h.checked ?_
      unfold Vm.callChecked
      split
      · exact h.crash
      · exact moves_callMissed hnatives hframes
      · split
        · exact .stay [] [] vm.natives rfl rfl rfl hnatives hframes
        · exact moves_callMissed hnatives hframes

theorem moves_tailCall (fnId arity : Nat) : Moves vm (u.tailCall program host input budget fnId arity).vm := by
  have h : Beside vm u := .of_eq hnatives hframes
  unfold Vm.tailCall
  split
  · exact h.crash
  · split
    · exact h.crash
    · refine h.charge fun b => h.checked (h.hooked (fun steps v => ?_) fun steps => ?_)
      · exact moves_collapse (u := { u with steps := steps }) hnatives hframes v
      · exact moves_reuse hnatives hframes

theorem moves_callClosure (arity : Nat) : Moves vm (u.callClosure program budget arity).vm := by
  have h : Beside vm u := .of_eq hnatives hframes
  unfold Vm.callClosure
  split
  · exact h.crash
  · dsimp only
    split
    · split
      · exact (h.withStack _).crash
      · exact Beside.charge (h.withStack _) fun b => moves_enter hnatives hframes
    · exact (h.withStack _).raise _

end Level

/-! ### Invocations -/

theorem length_frameSlots (h : args.length ≤ f.frameSize) : (frameSlots f args).length = f.frameSize := by
  unfold frameSlots
  rw [length_append, length_replicate]
  omega

/-- Slots that no frame owns. -/
theorem not_restored_onLocals (hlocals : vm'.memory.localsStorage = vm.memory.localsStorage ++ frameSlots f args)
    (hsize : args.length ≤ f.frameSize) (hpos : f.frameSize ≠ 0) : ¬ vm.Restored vm' := by
  rintro ⟨-, -, hrestored, -, -⟩
  rw [hlocals] at hrestored
  have hlength := congrArg List.length hrestored
  rw [length_append, length_frameSlots hsize] at hlength
  omega

/-- Behind all the checks, only the room for a frame decides. -/
theorem begins_enter {route : Route} (steps : Nat) (harity : a.args.length = f.arity) (hpasses : a.Passes host f)
    (hhook : ∀ answer e, input.hook = some answer → answer.result ≠ .error e) :
    Begins host input vm a f (enter budget route a.fnId f a.args none
      { vm with natives := .runTo vm.frames.length :: vm.natives, steps := steps }).vm := by
  have hrefused : a.RefusedAtOnce host input vm f ↔ maxCallDepth ≤ vm.frames.length ∧ f.frameSize = 0 := by
    refine ⟨?_, fun h => .inr (.inr (.inr h))⟩
    rintro (h | h | ⟨answer, e, h, he⟩ | h)
    · exact absurd harity h
    · exact absurd hpasses h
    · exact absurd he (hhook answer e h)
    · exact h
  obtain hvm | ⟨hsize, hfull, hvm⟩ | ⟨frame, memory, hroom, hvm⟩ := enter_cases budget route a.fnId f
    a.args none { vm with natives := .runTo vm.frames.length :: vm.natives, steps := steps }
  · exact .crashed (by rw [hvm]; rfl)
  · by_cases hzero : f.frameSize = 0
    · have hslots : frameSlots f a.args = [] :=
        eq_nil_of_length_eq_zero ((length_frameSlots hsize).trans hzero)
      have hlocals : vm.memory.localsStorage ++ frameSlots f a.args = vm.memory.localsStorage := by
        rw [hslots, append_nil]
      refine .refused (.callStackOverflow maxCallDepth) (hrefused.mpr ⟨hfull, hzero⟩) ?_ ?_ ?_
      all_goals rw [hvm]
      · exact ⟨rfl, rfl, hlocals, rfl, rfl⟩
      · rfl
      · rfl
    · refine .cramped (.callStackOverflow maxCallDepth) (fun h => hzero (hrefused.mp h).2) ?_ ?_ ?_ ?_
      all_goals rw [hvm]
      · exact not_restored_onLocals rfl hsize hzero
      · rfl
      · rfl
      · rfl
  · refine .started (fun h => ?_) ?_ ?_
    · have hfull := (hrefused.mp h).1
      have hroom : vm.frames.length < maxCallDepth := hroom
      omega
    all_goals rw [hvm]
    rfl

theorem begins_invoke (hf : program.functions[a.fnId]? = some f) (hroute : a.route = vm.invokeRoute) :
    Begins host input vm a f (vm.invoke program host input budget a.fnId a.args).vm := by
  unfold Vm.invoke
  rw [hf]
  dsimp only
  split
  · rename_i harity
    exact .refused _ (.inl harity) ⟨rfl, rfl, rfl, rfl, rfl⟩ rfl rfl
  · rename_i harity
    have harity : a.args.length = f.arity := Decidable.of_not_not harity
    have harg : a.arg = fun i => some (a.args.getD i .unit) := by
      funext i
      show (if a.route.charges then _ else _) = _
      rw [hroute, Vm.charges_invokeRoute]
      rfl
    unfold checked
    rw [← harg]
    split
    · rename_i hpasses
      unfold hooked
      split
      · rename_i hnone
        exact begins_enter vm.steps harity hpasses fun answer e h => by simp [hnone] at h
      · rename_i answer hhook
        split
        · rename_i e hresult
          exact .refused e (.inr (.inr (.inl ⟨answer, e, hhook, hresult⟩))) ⟨rfl, rfl, rfl, rfl, rfl⟩ rfl rfl
        · rename_i v hresult
          exact .answered v rfl rfl rfl
        · rename_i hresult
          apply begins_enter answer.steps harity hpasses
          intro answer' e h he
          rw [some.inj (h.symm.trans hhook), hresult] at he
          exact nomatch he
    · rename_i e hfails
      refine .refused e (.inr (.inl fun hpasses => ?_)) ⟨rfl, rfl, rfl, rfl, rfl⟩ rfl rfl
      exact nomatch hfails.symm.trans hpasses
    · exact .crashed rfl

theorem Begins.moves (h : Begins host input vm a f vm') : Moves vm vm' := by
  cases h with
  | crashed hcontrol => exact .crashed hcontrol
  | answered v hnatives hframes hcontrol =>
    exact .stay [] [] vm.natives rfl rfl rfl hnatives (congrArg List.length hframes)
  | refused e hrefused hrestored hnatives hcontrol =>
    exact .stay [] [] vm.natives rfl rfl rfl hnatives (congrArg List.length hrestored.frames)
  | cramped e hrefused hrestored hnatives hframes hcontrol =>
    exact .stay [] [] vm.natives rfl rfl rfl hnatives (congrArg List.length hframes)
  | started hrefused hnatives hframes => exact .enter hnatives hframes

theorem moves_invoke (fnId : Nat) (args : List Value) :
    Moves vm (vm.invoke program host input budget fnId args).vm := by
  cases hf : program.functions[fnId]? with
  | none =>
    unfold Vm.invoke
    rw [hf]
    exact .crashed rfl
  | some f =>
    have hbegins : Begins host input vm ⟨vm.invokeRoute, fnId, args⟩ f
        (vm.invoke program host input budget fnId args).vm := begins_invoke hf rfl
    exact hbegins.moves

/-! ### One step -/

theorem moves_effectCall {kindIdx opIdx arity : Nat} (hnatives : u.natives = vm.natives)
    (hframes : u.frames.length = vm.frames.length)
    (ho : u.effectCall program host input budget kindIdx opIdx arity = some o) : Moves vm o.vm := by
  have h : Beside vm u := .of_eq hnatives hframes
  unfold Vm.effectCall at ho
  split at ho
  · exact some.inj ho ▸ (h.withStack _).raise _
  · have hnative : bases [.effectCall] = [] := rfl
    have heffect := (h.withStack (u.memory.stack.drop arity)).push hnative
    dsimp only at ho
    split at ho
    · split at ho
      · exact some.inj ho ▸ heffect.goto _
      · exact some.inj ho ▸ (Beside.walk vm).runParserOp heffect _
      · exact (Beside.walk vm).runConcOp heffect ho
      · exact some.inj ho ▸ heffect.goto _
    all_goals
      obtain rfl := some.inj ho
    · exact (h.withStack _).crash
    · exact (h.withStack _).crash
    · exact (h.withStack _).crash
    · exact (h.withStack _).raise _
    · exact (h.withStack _).raise _

theorem moves_execute {frame : Frame} {frames : List Frame} (hvm : vm.frames = frame :: frames)
    (exec : Exec Unit) : Moves vm (vm.execute frame frames exec) := by
  have h : ∀ s, Beside vm (vm.refocus frame frames s) := fun s =>
    .of_eq rfl (by rw [hvm]; rfl)
  unfold Vm.execute
  split
  · exact .stay [] [] vm.natives rfl rfl rfl rfl (by rw [hvm]; rfl)
  · exact (h _).raise _
  · exact (h _).crash

theorem moves_perform {frame : Frame} {frames : List Frame} {op : Op} (hvm : vm.frames = frame :: frames)
    (ho : vm.perform program host input budget frame frames op = some o) : Moves vm o.vm := by
  let advanced : Vm := { vm with frames := { frame with pc := frame.pc + 1 } :: frames }
  have hnatives : advanced.natives = vm.natives := rfl
  have hframes : advanced.frames.length = vm.frames.length := by rw [hvm]; rfl
  have h : Beside vm advanced := .of_eq hnatives hframes
  unfold Vm.perform at ho
  split at ho
  · exact some.inj ho ▸ moves_call hnatives hframes _ _
  · exact some.inj ho ▸ moves_tailCall hnatives hframes _ _
  · exact some.inj ho ▸ moves_callClosure hnatives hframes _
  · exact some.inj ho ▸ moves_ret hnatives hframes
  · exact some.inj ho ▸ (Beside.walk vm).withList h fun _ _ _ hu => (Beside.walk vm).mapNext hu _ _ _
  · exact some.inj ho ▸ (Beside.walk vm).withList h fun _ _ _ hu => (Beside.walk vm).filterNext hu _ _ _
  · exact some.inj ho ▸ (Beside.walk vm).withList h fun _ _ _ hu => (Beside.walk vm).sortNext hu _ _ _
  · exact some.inj ho ▸ (Beside.walk vm).listFold h
  · exact some.inj ho ▸ (Beside.walk vm).parallelMap h
  · exact moves_effectCall hnatives hframes ho
  · obtain ⟨exec, -, rfl⟩ := map_eq_some_iff.mp ho
    exact moves_execute hvm exec

theorem Moves.of_steps (h : Moves { vm with steps := vm.steps + 1 } vm') : Moves vm vm' := by
  cases h with
  | crashed hcontrol => exact .crashed hcontrol
  | stay popped pushed rest hpopped hpushed hnatives hnatives' hframes =>
    exact .stay popped pushed rest hpopped hpushed hnatives hnatives' hframes
  | call hnatives' hframes => exact .call hnatives' hframes
  | enter hnatives' hframes => exact .enter hnatives' hframes
  | ret base rest hnatives hnatives' hframes hbase => exact .ret base rest hnatives hnatives' hframes hbase
  | succeed base rest v hnatives hnatives' hframes hbase hcontrol =>
    exact .succeed base rest v hnatives hnatives' hframes hbase hcontrol
  | fail popped base rest e hpopped hnatives hnatives' hframes hcontrol =>
    exact .fail popped base rest e hpopped hnatives hnatives' hframes hcontrol

theorem moves_dispatch (ho : vm.dispatch program host input budget = some o) : Moves vm o.vm := by
  unfold Vm.dispatch at ho
  split at ho
  · exact some.inj ho ▸ Beside.raise (.of_eq rfl rfl) _
  · dsimp only at ho
    split at ho
    · exact some.inj ho ▸ .crashed rfl
    · rename_i frame frames op hfetch
      exact .of_steps (moves_perform (fetch_frames hfetch) ho)

theorem bases_singleton (native : Native) : bases [native] = [] ∨ ∃ base, native = .runTo base := by
  cases native with
  | runTo base => exact .inr ⟨base, rfl⟩
  | _ => exact .inl rfl

/-- **One step moves between the depths.** -/
theorem step_moves (ho : vm.step program host input budget = some o) : Moves vm o.vm := by
  unfold Vm.step at ho
  split at ho
  · exact nomatch ho
  · exact nomatch ho
  · exact moves_dispatch ho
  · exact some.inj ho ▸ moves_invoke _ _
  · exact some.inj ho ▸ Beside.goto (.of_eq rfl rfl) _
  · exact some.inj ho ▸ moves_invoke _ _
  · exact some.inj ho ▸ (Beside.walk vm).parse (.of_eq rfl rfl) _ _ _
  · split at ho
    · exact nomatch ho
    · exact nomatch ho
    · rename_i native natives hnot hnatives
      obtain rfl := some.inj ho
      obtain hnative | ⟨base, rfl⟩ := bases_singleton native
      · have hbeside := beside_of_cons hnative hnatives
        exact (Beside.walk vm).afterCall (fun _ => hbeside) (fun _ => hbeside) _
      · refine .crashed ?_
        rfl
  · split at ho
    · exact some.inj ho ▸ .crashed rfl
    · rename_i native natives hnatives
      obtain rfl := some.inj ho
      obtain hnative | ⟨base, rfl⟩ := bases_singleton native
      · exact (Beside.walk vm).afterParse (beside_of_cons hnative hnatives) _ _
      · refine .crashed ?_
        rfl
  · split at ho
    · rename_i natives hnatives
      exact some.inj ho ▸ (Beside.walk vm).afterEffect (beside_of_cons rfl hnatives) _
    · exact nomatch ho
    · exact some.inj ho ▸ .crashed rfl
  · obtain ⟨turn, -, rfl⟩ := map_eq_some_iff.mp ho
    exact Beside.await (.of_eq rfl rfl) _ _ rfl
  · obtain ⟨answers, -, rfl⟩ := map_eq_some_iff.mp ho
    exact (Beside.walk vm).collect (.of_eq rfl rfl) _ _

end Moves

/-! ## Runs inside of a call -/

/-- **The states of a call**: the machine takes steps, in whatever surroundings, until the call comes back to
what waits for it. -/
inductive Vm.Inside (program : Program) (host : Host) (outer : List Native) (vm : Vm) : Vm → Prop
  | start : Vm.Inside program host outer vm vm
  | step {u : Vm} {input : Input} {budget : Budget} {o : Outcome} (hu : Vm.Inside program host outer vm u)
      (hback : ¬ (u.natives = outer ∧ ∃ result, u.control = .finished result))
      (hstep : u.step program host input budget = some o) : Vm.Inside program host outer vm o.vm

/-- **The invariant of a call** that was entered above `depth` frames. -/
inductive Depth (outer : List Native) (depth : Nat) (vm : Vm) : Prop
  | crashed (hcontrol : vm.control = .crashed)
  /-- The bases of the loops inside of it grow inwards, and the frames are above them all. -/
  | inside (inner : List Native) (hnatives : vm.natives = inner ++ .runTo depth :: outer)
      (hbases : (vm.frames.length :: bases (inner ++ [.runTo depth])).Pairwise (· > ·))
  | returned (v : Value) (hnatives : vm.natives = outer) (hcontrol : vm.control = .finished (.ok v))
  | failed (e : VmError) (hnatives : vm.natives = outer) (hcontrol : vm.control = .finished (.error e))
      (hframes : depth < vm.frames.length)

section Depth

variable {program : Program} {host : Host} {input : Input} {budget : Budget} {outer inner popped rest : List Native}
  {depth base : Nat} {vm vm' : Vm} {o : Outcome}

/-- What a native gives up lies inside of the call. -/
theorem inner_of_append (hpopped : bases popped = []) (h : popped ++ rest = inner ++ Native.runTo depth :: outer) :
    ∃ inner', inner = popped ++ inner' ∧ rest = inner' ++ .runTo depth :: outer := by
  obtain ⟨inner', rfl, hrest⟩ | ⟨below, rfl, hbelow⟩ := append_eq_append_iff.mp h
  · exact ⟨inner', rfl, hrest⟩
  · match below with
    | [] => exact ⟨[], by simp, by simpa using hbelow.symm⟩
    | native :: below =>
      obtain rfl : .runTo depth = native := head_eq_of_cons_eq hbelow
      rw [bases_append] at hpopped
      exact nomatch (append_eq_nil_iff.mp hpopped).2

/-- The loop that is left is that of the call itself, or lies inside of it. -/
theorem inner_of_runTo (h : .runTo base :: rest = inner ++ Native.runTo depth :: outer) :
    (inner = [] ∧ base = depth ∧ rest = outer) ∨
      ∃ inner', inner = .runTo base :: inner' ∧ rest = inner' ++ .runTo depth :: outer := by
  match inner with
  | [] =>
    obtain ⟨hbase, hrest⟩ := List.cons.inj h
    exact .inl ⟨rfl, Native.runTo.inj hbase, hrest⟩
  | native :: inner =>
    obtain ⟨rfl, hrest⟩ := List.cons.inj h
    exact .inr ⟨inner, rfl, hrest⟩

theorem Depth.move (hnatives : vm.natives = inner ++ .runTo depth :: outer)
    (hbases : (vm.frames.length :: bases (inner ++ [.runTo depth])).Pairwise (· > ·)) (h : Moves vm vm') :
    Depth outer depth vm' := by
  cases h with
  | crashed hcontrol => exact .crashed hcontrol
  | stay popped pushed rest hpopped hpushed hbefore hafter hframes =>
    obtain ⟨inner', rfl, rfl⟩ := inner_of_append hpopped (hbefore.symm.trans hnatives)
    refine .inside (pushed ++ inner') (by rw [hafter, append_assoc]) ?_
    rw [append_assoc, bases_append, hpopped] at hbases
    rw [append_assoc, bases_append, hpushed, hframes]
    exact hbases
  | call hafter hframes =>
    refine .inside inner (hafter.trans hnatives) ?_
    rw [pairwise_cons] at hbases ⊢
    refine ⟨fun b hb => ?_, hbases.2⟩
    have := hbases.1 b hb
    omega
  | enter hafter hframes =>
    refine .inside (.runTo vm.frames.length :: inner) (by rw [hafter, hnatives]; rfl) ?_
    show List.Pairwise _ (_ :: vm.frames.length :: bases _)
    rw [pairwise_cons]
    refine ⟨fun b hb => ?_, hbases⟩
    rcases mem_cons.mp hb with rfl | hb
    · omega
    · have := (pairwise_cons.mp hbases).1 b hb
      omega
  | ret base rest hbefore hafter hframes hbase =>
    refine .inside inner (hafter.trans hnatives) ?_
    rw [pairwise_cons] at hbases ⊢
    refine ⟨fun b hb => ?_, hbases.2⟩
    obtain ⟨rfl, rfl, -⟩ | ⟨inner', rfl, -⟩ := inner_of_runTo (hbefore.symm.trans hnatives)
    · obtain rfl := mem_singleton.mp hb
      exact hbase
    · rcases mem_cons.mp hb with rfl | hb
      · exact hbase
      · have := (pairwise_cons.mp hbases.2).1 b hb
        omega
  | succeed base rest v hbefore hafter hframes hbase hcontrol =>
    obtain ⟨rfl, rfl, rfl⟩ | ⟨inner', rfl, rfl⟩ := inner_of_runTo (hbefore.symm.trans hnatives)
    · exact .returned v hafter hcontrol
    · refine .inside inner' hafter ?_
      have hlt := (pairwise_cons.mp hbases).1 base (mem_cons_self ..)
      have heq : vm'.frames.length = base := by omega
      rw [heq]
      exact (pairwise_cons.mp hbases).2
  | fail popped base rest e hpopped hbefore hafter hframes hcontrol =>
    obtain ⟨inner', rfl, hrest⟩ := inner_of_append hpopped (hbefore.symm.trans hnatives)
    rw [append_assoc, bases_append, hpopped] at hbases
    obtain ⟨rfl, rfl, rfl⟩ | ⟨inner', rfl, rfl⟩ := inner_of_runTo hrest
    · refine .failed e hafter hcontrol ?_
      rw [hframes]
      exact (pairwise_cons.mp hbases).1 base (mem_singleton.mpr rfl)
    · refine .inside inner' hafter ?_
      rw [hframes]
      exact hbases.sublist (.cons_cons _ (.cons _ (.refl _)))

theorem step_eq_none (h : vm.control = .crashed) : vm.step program host input budget = none := by
  unfold Vm.step
  rw [h]

/-- **A call keeps its depth.** -/
theorem Depth.run (hvm : Depth outer depth vm) (h : Vm.Inside program host outer vm vm') : Depth outer depth vm' := by
  induction h with
  | start => exact hvm
  | step hu hback hstep ih =>
    cases ih with
    | crashed hcontrol => exact nomatch (step_eq_none hcontrol).symm.trans hstep
    | inside inner hnatives hbases => exact .move hnatives hbases (step_moves hstep)
    | returned v hnatives hcontrol => exact absurd ⟨hnatives, _, hcontrol⟩ hback
    | failed e hnatives hcontrol hframes => exact absurd ⟨hnatives, _, hcontrol⟩ hback

/-- A call that is over goes nowhere. -/
theorem Vm.Inside.eq_of_back {result : Except VmError Value} (h : Vm.Inside program host outer vm vm')
    (hnatives : vm.natives = outer) (hcontrol : vm.control = .finished result) : vm' = vm := by
  induction h with
  | start => rfl
  | step hu hback hstep ih =>
    subst ih
    exact absurd ⟨hnatives, _, hcontrol⟩ hback

/-- A call that started and comes back with an error has frames too many. -/
theorem Depth.frames_of_error {e : VmError} (h : Depth outer depth vm) (hnatives : vm.natives = outer)
    (hcontrol : vm.control = .finished (.error e)) : depth < vm.frames.length := by
  cases h with
  | crashed hcrashed => exact nomatch hcrashed.symm.trans hcontrol
  | inside inner hinside hbases =>
    have hlength := congrArg List.length (hinside.symm.trans hnatives)
    simp at hlength
    omega
  | returned v _ hok => exact nomatch hok.symm.trans hcontrol
  | failed _ _ _ hframes => exact hframes

end Depth

/-! ## Calls that fail -/

/-- The machine is about to call back into itself, or to be called. -/
inductive Vm.Entering (vm : Vm) : Prop
  | invoke (fnId : Nat) (args : List Value) (hcontrol : vm.control = .invoke fnId args)
  | invokeClosure (f : Value) (args : List Value) (hcontrol : vm.control = .invokeClosure f args)

/-- The call that is about to be made is refused in front of it, or is of no function. -/
def Vm.RefusedAtOnce (program : Program) (host : Host) (input : Input) (vm : Vm) : Prop :=
  ∀ a f, vm.attempt program = some a → program.functions[a.fnId]? = some f → a.RefusedAtOnce host input vm f

section Failed

variable {program : Program} {host : Host} {input : Input} {budget : Budget} {vm vm' : Vm} {o : Outcome}
  {a : Attempt} {f : Function} {e : VmError}

theorem begins_step (ha : vm.attempt program = some a) (hf : program.functions[a.fnId]? = some f)
    (hentering : vm.Entering) (hstep : vm.step program host input budget = some o) :
    Begins host input vm a f o.vm := by
  unfold Vm.attempt at ha
  unfold Vm.step at hstep
  cases hentering with
  | invoke fnId args hcontrol =>
    rw [hcontrol] at ha hstep
    obtain rfl := some.inj ha
    exact some.inj hstep ▸ begins_invoke hf rfl
  | invokeClosure g args hcontrol =>
    rw [hcontrol] at ha hstep
    cases g with
    | closure fnId _ captures =>
      obtain rfl := some.inj ha
      exact some.inj hstep ▸ begins_invoke (a := ⟨vm.invokeRoute, fnId, captures ++ args⟩) hf rfl
    | _ => exact nomatch ha

/-- A value that is no closure is no call. -/
theorem restored_of_no_attempt (ha : vm.attempt program = none) (hentering : vm.Entering)
    (hstep : vm.step program host input budget = some o) :
    vm.Restored o.vm ∧ o.vm.natives = vm.natives ∧ ∃ e, o.vm.control = .finished (.error e) := by
  unfold Vm.attempt at ha
  unfold Vm.step at hstep
  cases hentering with
  | invoke fnId args hcontrol =>
    rw [hcontrol] at ha
    exact nomatch ha
  | invokeClosure g args hcontrol =>
    rw [hcontrol] at ha hstep
    split at hstep
    all_goals first
      | exact some.inj hstep ▸ ⟨⟨rfl, rfl, rfl, rfl, rfl⟩, rfl, _, rfl⟩
      | simp_all

theorem invoke_no_function (hf : program.functions[fnId]? = none) :
    (vm.invoke program host input budget fnId args).vm.control = .crashed := by
  unfold Vm.invoke
  rw [hf]
  rfl

theorem crashed_of_no_function (ha : vm.attempt program = some a) (hf : program.functions[a.fnId]? = none)
    (hentering : vm.Entering) (hstep : vm.step program host input budget = some o) : o.vm.control = .crashed := by
  unfold Vm.attempt at ha
  unfold Vm.step at hstep
  cases hentering with
  | invoke fnId args hcontrol =>
    rw [hcontrol] at ha hstep
    obtain rfl := some.inj ha
    obtain rfl := some.inj hstep
    exact invoke_no_function hf
  | invokeClosure g args hcontrol =>
    rw [hcontrol] at ha hstep
    cases g with
    | closure fnId _ captures =>
      obtain rfl := some.inj ha
      obtain rfl := some.inj hstep
      exact invoke_no_function hf
    | _ => exact nomatch ha

/-- A machine that is gone stays so. -/
theorem Vm.Inside.crashed {outer : List Native} (h : Vm.Inside program host outer vm vm')
    (hcontrol : vm.control = .crashed) : vm'.control = .crashed := by
  induction h with
  | start => exact hcontrol
  | step hu hback hstep ih => exact nomatch (step_eq_none ih).symm.trans hstep

theorem Begins.restored_of_error (h : Begins host input vm a f vm')
    {vm'' : Vm} (hrun : Vm.Inside program host vm.natives vm' vm'') (hnatives : vm''.natives = vm.natives)
    (hcontrol : vm''.control = .finished (.error e)) : vm.Restored vm'' ↔ a.RefusedAtOnce host input vm f := by
  cases h with
  | crashed hcrashed => exact nomatch (hrun.crashed hcrashed).symm.trans hcontrol
  | answered v hback hframes hok =>
    rw [hrun.eq_of_back hback hok, hok] at hcontrol
    exact nomatch hcontrol
  | refused e' hrefused hrestored hback hfailed =>
    rw [hrun.eq_of_back hback hfailed]
    exact iff_of_true hrestored hrefused
  | cramped e' hrefused hrestored hback hframes hfailed =>
    rw [hrun.eq_of_back hback hfailed]
    exact iff_of_false hrestored hrefused
  | started hrefused hstarted hframes =>
    have hinside : Depth vm.natives vm.frames.length vm' := by
      refine .inside [] hstarted ?_
      rw [hframes]
      simp [bases]
    have hleft := (hinside.run hrun).frames_of_error hnatives hcontrol
    refine iff_of_false (fun hrestored => ?_) hrefused
    rw [hrestored.frames] at hleft
    omega

/-- **A call that comes back with an error has left the machine as it was exactly when it was refused in front
of it.** An error from inside of it pops nothing, at whatever depth it arises. -/
theorem restored_iff (hentering : vm.Entering) (hstep : vm.step program host input budget = some o)
    (hrun : Vm.Inside program host vm.natives o.vm vm') (hnatives : vm'.natives = vm.natives)
    (hcontrol : vm'.control = .finished (.error e)) : vm.Restored vm' ↔ vm.RefusedAtOnce program host input := by
  cases ha : vm.attempt program with
  | none =>
    obtain ⟨hrestored, hback, e', hfailed⟩ := restored_of_no_attempt ha hentering hstep
    rw [hrun.eq_of_back hback hfailed]
    refine iff_of_true hrestored fun a f ha' => ?_
    exact nomatch ha.symm.trans ha'
  | some a =>
    cases hf : program.functions[a.fnId]? with
    | none =>
      have hcrashed := hrun.crashed (crashed_of_no_function ha hf hentering hstep)
      exact nomatch hcrashed.symm.trans hcontrol
    | some f =>
      rw [(begins_step ha hf hentering hstep).restored_of_error hrun hnatives hcontrol]
      refine ⟨fun h a' f' ha' hf' => ?_, fun h => h a f ha hf⟩
      obtain rfl := some.inj (ha.symm.trans ha')
      obtain rfl := some.inj (hf.symm.trans hf')
      exact h

end Failed

/-! ## A parser -/

section Optional

def parserNode (kind : String) (parts : List (String × Value)) : Value :=
  .record 0 (("kind", .str kind) :: parts)

/-- `parser.optional(parser.map(parser.digit(), fail))`. -/
def optionalFail : Value :=
  parserNode "Optional" [("p", parserNode "Map" [("p", parserNode "Digit" []), ("f", .closure 0 0 [])])]

/-- `fn fail(s) { todo }` and `fn main(p) { parser.run(p, "1") }`. -/
def parserProgram : Program where
  constants := [.str "parser", .str "run", .str "1", .str "todo"]
  functions :=
    [ ⟨"fail", 1, 1, [.panic 3], [], 0, [], 0⟩
    , ⟨"main", 1, 1, [.loadLocal 0, .pushConst 2, .effectCall 0 1 2, .return], [], 0, [], 0⟩ ]
  functionNames _ := none
  recordShapes := []

/-- The machine is about to call `fail`. -/
structure CallsFail (vm : Vm) : Prop where
  control : ∃ s, vm.control = .invokeClosure (.closure 0 0 []) [s]
  frames : vm.frames.length < maxCallDepth
  steps : vm.steps ≤ vm.stepLimit

/-- A call of `fail`, from any machine that has room for it: its frame and its argument stay. -/
theorem CallsFail.fails {vm : Vm} (h : CallsFail vm) (budget : Budget) : ∃ o vm' e,
    vm.step parserProgram plainHost plainInput budget = some o ∧
      Vm.Inside parserProgram plainHost vm.natives o.vm vm' ∧ vm'.natives = vm.natives ∧
      vm'.control = .finished (.error e) ∧ vm'.frames.length = vm.frames.length + 1 := by
  obtain ⟨s, hcontrol⟩ := h.control
  have henter : vm.step parserProgram plainHost plainInput budget = some
      (enter budget vm.invokeRoute 0 ⟨"fail", 1, 1, [.panic 3], [], 0, [], 0⟩ [s] none
        { vm with natives := .runTo vm.frames.length :: vm.natives }) := by
    unfold Vm.step
    rw [hcontrol]
    rfl
  obtain ⟨⟨fnId, pc, start, len, base, key, arena, slots⟩, hpc, hfn, hstarted⟩ : ∃ frame : Frame, frame.pc = 0 ∧ frame.fnId = 0 ∧
      (enter budget vm.invokeRoute 0 ⟨"fail", 1, 1, [.panic 3], [], 0, [], 0⟩ [s] none
        { vm with natives := .runTo vm.frames.length :: vm.natives }).vm =
      { vm.onLocals (· ++ [s]) with
        natives := .runTo vm.frames.length :: vm.natives, frames := frame :: vm.frames, control := .run } := by
    unfold enter
    rw [if_neg (Nat.not_le.mpr h.frames)]
    exact ⟨_, rfl, rfl, rfl⟩
  have hfail : ∃ o' e, (enter budget vm.invokeRoute 0 ⟨"fail", 1, 1, [.panic 3], [], 0, [], 0⟩ [s] none
        { vm with natives := .runTo vm.frames.length :: vm.natives }).vm.step parserProgram plainHost plainInput
          budget = some o' ∧ o'.vm.natives = vm.natives ∧ o'.vm.control = .finished (.error e) ∧
        o'.vm.frames.length = vm.frames.length + 1 := by
    obtain rfl : pc = 0 := hpc
    obtain rfl : fnId = 0 := hfn
    rw [hstarted]
    unfold Vm.step
    dsimp only [Vm.onLocals]
    unfold Vm.dispatch
    rw [if_neg (Nat.not_lt.mpr h.steps)]
    exact ⟨_, _, rfl, rfl, rfl, rfl⟩
  obtain ⟨o', e, hstep', hnatives, hfinished, hframes⟩ := hfail
  refine ⟨_, o'.vm, e, henter, .step .start ?_ hstep', hnatives, hfinished, hframes⟩
  rintro ⟨-, result, hresult⟩
  rw [hstarted] at hresult
  exact nomatch hresult

/-- What can be seen of a thread that is about to call `fail`. -/
def isCallingFail (thread : Thread) : Bool :=
  (match thread.vm.control with
    | .invokeClosure (.closure 0 0 []) [_] => true
    | _ => false) &&
  decide (thread.vm.frames.length < maxCallDepth) && decide (thread.vm.steps ≤ thread.vm.stepLimit)

theorem callsFail_of_isCallingFail {thread : Thread} (h : isCallingFail thread) : CallsFail thread.vm := by
  unfold isCallingFail at h
  simp only [Bool.and_eq_true, decide_eq_true_eq] at h
  obtain ⟨⟨hcontrol, hframes⟩, hsteps⟩ := h
  refine ⟨?_, hframes, hsteps⟩
  split at hcontrol
  · rename_i s hvm
    exact ⟨s, hvm⟩
  · exact nomatch hcontrol

/-- A run comes to where `parser.run` calls `fail`. -/
theorem reachable_callsFail {P : Vm → Input → Prop} (hP : ∀ vm input, P vm input) :
    ∃ s thread, Reachable parserProgram plainHost none P s ∧ s.threads[0]? = some thread ∧ CallsFail thread.vm := by
  have hseen : (((calledSystem none 1 [optionalFail]).turns parserProgram plainHost (fun _ _ => true) plainInput 0
      8).bind (·.threads[0]?)).map isCallingFail = some true := by decide +kernel
  obtain ⟨thread, hthread, hseen⟩ := map_eq_some_iff.mp hseen
  obtain ⟨s, hs, hthread⟩ := bind_eq_some_iff.mp hthread
  exact ⟨s, thread, (reachable_calledSystem none 1 _).turns (fun _ _ _ => hP _ _) hs, hthread,
    callsFail_of_isCallingFail hseen⟩

/-- In the parser of a run, `fail` fails, and its frame stays. -/
theorem restored_fails_optional : ¬ ∀ (program : Program) (host : Host) (ceiling : Option Nat) (s : System)
    (i : Nat) (thread : Thread) (input : Input) (o : Outcome) (vm' : Vm) (e : VmError),
    Reachable program host ceiling (fun _ _ => True) s → s.threads[i]? = some thread → thread.vm.Entering →
    thread.vm.step program host input s.budget = some o →
    Vm.Inside program host thread.vm.natives o.vm vm' → vm'.natives = thread.vm.natives →
    vm'.control = .finished (.error e) → thread.vm.Restored vm' := by
  intro h
  obtain ⟨s, thread, hs, hthread, hcalls⟩ := reachable_callsFail fun _ _ => trivial
  obtain ⟨o, vm', e, hstep, hrun, hnatives, hcontrol, hframes⟩ := hcalls.fails s.budget
  obtain ⟨arg, hentering⟩ := hcalls.control
  have hrestored := h parserProgram plainHost none s 0 thread plainInput o vm' e hs hthread
    (.invokeClosure _ _ hentering) hstep hrun hnatives hcontrol
  rw [hrestored.frames] at hframes
  omega

/-- It was not refused in front of it. -/
theorem restored_iff_optional : ∃ s thread o vm' e,
    Reachable parserProgram plainHost none (fun _ _ => True) s ∧ s.threads[0]? = some thread ∧
      thread.vm.Entering ∧ thread.vm.step parserProgram plainHost plainInput s.budget = some o ∧
      Vm.Inside parserProgram plainHost thread.vm.natives o.vm vm' ∧ vm'.natives = thread.vm.natives ∧
      vm'.control = .finished (.error e) ∧
      (thread.vm.Restored vm' ↔ thread.vm.RefusedAtOnce parserProgram plainHost plainInput) := by
  obtain ⟨s, thread, hs, hthread, hcalls⟩ := reachable_callsFail fun _ _ => trivial
  obtain ⟨o, vm', e, hstep, hrun, hnatives, hcontrol, hframes⟩ := hcalls.fails s.budget
  obtain ⟨arg, hentering⟩ := hcalls.control
  have hentering : thread.vm.Entering := .invokeClosure _ _ hentering
  exact ⟨s, thread, o, vm', e, hs, hthread, hentering, hstep, hrun, hnatives, hcontrol,
    restored_iff hentering hstep hrun hnatives hcontrol⟩

end Optional

end LexLang.Machine
