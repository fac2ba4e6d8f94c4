/-
# LexLang.Machine.Calls — what a step reports of the calls it makes

Only four routes lead into a function: the three instructions and `invoke`. `attempt` reads off a machine's
state which call its next step is about to make, if any; `step_reports` says what that step then charges and
reports. What is claimed of every call of a run is derived from it.
-/
import LexLang.Machine.Threads

namespace LexLang.Machine

open List Option

/-! ## The call that comes next -/

structure Attempt where
  route : Route
  fnId : Nat
  args : List Value

namespace Vm

/-- The call that an instruction makes. -/
def attemptOp (stack : List Value) : Op → Option Attempt
  | .call fnId arity => if stack.length < arity then none else some ⟨.call, fnId, (stack.take arity).reverse⟩
  | .tailCall fnId arity =>
    if stack.length < arity then none else some ⟨.tailCall, fnId, (stack.take arity).reverse⟩
  | .callClosure arity =>
    match stack[arity]? with
    | some (.closure fnId _ captures) => some ⟨.callClosure, fnId, captures ++ (stack.take arity).reverse⟩
    | _ => none
  | _ => none

/-- **The call that the next step makes**, where it makes one. -/
def attempt (program : Program) (vm : Vm) : Option Attempt :=
  match vm.control with
  | .invoke fnId args => some ⟨vm.invokeRoute, fnId, args⟩
  | .invokeClosure (.closure fnId _ captures) args => some ⟨vm.invokeRoute, fnId, captures ++ args⟩
  | .run =>
    if vm.stepLimit < vm.steps then none
    else (vm.fetch program).bind fun next => attemptOp vm.memory.stack next.2.2
  | _ => none

end Vm

@[simp]
theorem Vm.charges_invokeRoute (vm : Vm) : vm.invokeRoute.charges = false := by
  unfold Vm.invokeRoute
  split <;> rfl

theorem Vm.invokeRoute_ne_callClosure (vm : Vm) : vm.invokeRoute ≠ .callClosure := by
  unfold Vm.invokeRoute
  split <;> simp

namespace Attempt

/-- The argument that a predicate is evaluated on. -/
def arg (a : Attempt) (i : Nat) : Option Value :=
  if a.route.charges then a.args[i]? else some (a.args.getD i .unit)

/-- Every predicate of the function holds of its argument. -/
def Passes (host : Host) (a : Attempt) (f : Function) : Prop :=
  checkRefinements host f.name a.arg 0 f.refinements = .ok ()

/-- **The call is not going to start**, though nothing is wrong with the budget: an argument is refused, the
hook fails, or there is no room for a frame. -/
def Doomed (host : Host) (input : Input) (vm : Vm) (a : Attempt) (f : Function) : Prop :=
  (a.route ≠ .callClosure ∧ ¬ a.Passes host f) ∨
  (a.route ≠ .callClosure ∧ ∃ answer e, input.hook = some answer ∧ answer.result = .error e) ∨
  (a.route ≠ .tailCall ∧ maxCallDepth ≤ vm.frames.length) ∨
  f.frameSize < a.args.length

end Attempt

/-! ## Reports -/

/-- A step that calls nothing. -/
def Outcome.Quiet (budget : Budget) (o : Outcome) : Prop := o.events = [] ∧ o.budget = budget

/-- **What a step that attempts a call reports.** -/
inductive Reports (host : Host) (input : Input) (budget : Budget) (vm : Vm) (a : Attempt) (f : Function)
    (o : Outcome) : Prop
  /-- The budget does not allow it. -/
  | refused (message : String) (hroute : a.route.charges)
      (hnote : budget.noteCallBudget (callBudgetCost f) = .error message)
      (hevents : o.events = [.refused a.fnId (callBudgetCost f)]) (hbudget : o.budget = budget)
  /-- It is charged, and does not start. -/
  | vain (hroute : a.route.charges) (hcost : 0 < callBudgetCost f)
      (hnote : budget.noteCallBudget (callBudgetCost f) = .ok o.budget)
      (hevents : o.events = [.charged a.fnId (callBudgetCost f)]) (hdoomed : a.Doomed host input vm f)
  | charged (start : Start) (hroute : a.route.charges) (hcost : 0 < callBudgetCost f)
      (hnote : budget.noteCallBudget (callBudgetCost f) = .ok o.budget)
      (hevents : o.events =
        [.charged a.fnId (callBudgetCost f), .activated a.route start a.fnId a.args])
      (hpasses : a.route = .callClosure ∨ a.Passes host f)
  /-- It starts, and costs nothing. -/
  | free (start : Start) (hfree : a.route.charges = false ∨ callBudgetCost f = 0) (hbudget : o.budget = budget)
      (hevents : o.events = [.activated a.route start a.fnId a.args])
      (hpasses : a.route = .callClosure ∨ a.Passes host f)

section Reports

variable {program : Program} {host : Host} {input : Input} {budget : Budget} {vm vm' : Vm} {a : Attempt}
  {f : Function} {o : Outcome}

theorem Outcome.quiet_quiet : (Outcome.quiet budget vm).Quiet budget := ⟨rfl, rfl⟩

/-- What is left of a call behind the charge: it starts, or it was doomed. -/
def Starts (host : Host) (input : Input) (budget : Budget) (vm : Vm) (a : Attempt) (f : Function)
    (o : Outcome) : Prop :=
  o.budget = budget ∧
    ((o.events = [] ∧ (callBudgetCost f = 0 ∨ a.Doomed host input vm f)) ∨
      ∃ start, o.events = [.activated a.route start a.fnId a.args])

theorem starts_enter (key : Option (Nat × Nat)) (hframes : vm'.frames = vm.frames) (hroute : a.route ≠ .tailCall) :
    Starts host input budget vm a f (enter budget a.route a.fnId f a.args key vm') := by
  unfold enter
  split
  · rename_i hsize
    exact ⟨rfl, .inl ⟨rfl, .inr (.inr (.inr (.inr hsize)))⟩⟩
  · dsimp only
    split
    · rename_i hdepth
      exact ⟨rfl, .inl ⟨rfl, .inr (.inr (.inr (.inl ⟨hroute, hframes ▸ hdepth⟩)))⟩⟩
    · exact ⟨rfl, .inr ⟨.frame, rfl⟩⟩

theorem starts_hooked {answered : Vm → Value → Outcome} {declined : Vm → Outcome} (hroute : a.route ≠ .callClosure)
    (hanswered : ∀ steps v, Starts host input budget vm a f (answered { vm' with steps } v))
    (hdeclined : ∀ steps, Starts host input budget vm a f (declined { vm' with steps })) :
    Starts host input budget vm a f (hooked input budget vm' answered declined) := by
  unfold hooked
  split
  · exact hdeclined vm'.steps
  · rename_i answer hhook
    dsimp only
    split
    · rename_i e hresult
      exact ⟨rfl, .inl ⟨rfl, .inr (.inr (.inl ⟨hroute, answer, e, hhook, hresult⟩))⟩⟩
    · exact hanswered _ _
    · exact hdeclined _

variable (vm') in
/-- The predicates stand between the charge and the start. -/
theorem starts_checked {next : Outcome} (hroute : a.route ≠ .callClosure)
    (hnext : Starts host input budget vm a f next) :
    Starts host input budget vm a f (checked host budget f a.arg vm' next) ∧
      ((checked host budget f a.arg vm' next).events = [] ∨ a.Passes host f) := by
  unfold checked
  split
  · rename_i hpass
    exact ⟨hnext, .inr hpass⟩
  · rename_i e hfail
    refine ⟨⟨rfl, .inl ⟨rfl, .inr (.inl ⟨hroute, fun hpass => ?_⟩)⟩⟩, .inl rfl⟩
    exact nomatch hfail.symm.trans hpass
  · rename_i hfail
    refine ⟨⟨rfl, .inl ⟨rfl, .inr (.inl ⟨hroute, fun hpass => ?_⟩)⟩⟩, .inl rfl⟩
    exact nomatch hfail.symm.trans hpass

/-- A call that is charged reports the charge first. -/
theorem reports_charge {next : Budget → Outcome} (hroute : a.route.charges)
    (hnext : ∀ b, Starts host input b vm a f (next b))
    (hpasses : ∀ b, (next b).events = [] ∨ a.route = .callClosure ∨ a.Passes host f) :
    (charge budget a.fnId f vm' next).Quiet budget ∨
      Reports host input budget vm a f (charge budget a.fnId f vm' next) := by
  unfold charge
  dsimp only
  split
  · rename_i hcost
    obtain ⟨hbudget, ⟨hevents, -⟩ | ⟨start, hevents⟩⟩ := hnext budget
    · exact .inl ⟨hevents, hbudget⟩
    · refine .inr (.free start (.inr hcost) hbudget hevents ((hpasses budget).resolve_left ?_))
      simp [hevents]
  · rename_i hcost
    have hpos : 0 < callBudgetCost f := Nat.pos_of_ne_zero hcost
    split
    · rename_i message hnote
      exact .inr (.refused message hroute hnote rfl rfl)
    · rename_i b hnote
      obtain ⟨hbudget, ⟨hevents, hdoom⟩ | ⟨start, hevents⟩⟩ := hnext b
      · refine .inr (.vain hroute hpos ?_ ?_ (hdoom.resolve_left hcost))
        · show _ = Except.ok (next b).budget
          rw [hbudget, hnote]
        · show [_] ++ (next b).events = _
          rw [hevents, append_nil]
      · refine .inr (.charged start hroute hpos ?_ ?_ ((hpasses b).resolve_left (by simp [hevents])))
        · show _ = Except.ok (next b).budget
          rw [hbudget, hnote]
        · show [_] ++ (next b).events = _
          rw [hevents, singleton_append]

/-! ### The four routes -/

theorem starts_callMissed {args below : List Value} {key : Option (Nat × Nat)} (fnId : Nat)
    (hframes : vm'.frames = vm.frames) : Starts host input budget vm ⟨.call, fnId, args⟩ f
      (vm'.callMissed input budget fnId f args below key) :=
  starts_hooked (a := ⟨.call, fnId, args⟩) (by simp) (fun _ _ => ⟨rfl, .inr ⟨.jit, rfl⟩⟩) fun _ =>
    starts_enter (a := ⟨.call, fnId, args⟩) key hframes (by simp)

/-- Only a function without effects is looked up, and that costs nothing. -/
theorem starts_callChecked (fnId : Nat) (args below : List Value) : Starts host input budget vm ⟨.call, fnId, args⟩ f
      (vm.callChecked host input budget fnId f args below) := by
  unfold Vm.callChecked
  split
  · rename_i hkey
    refine ⟨rfl, .inl ⟨rfl, .inl ?_⟩⟩
    unfold Vm.memoKey at hkey
    split at hkey
    · rename_i helig
      have heffects : f.effects = [] := by simp_all
      simp [callBudgetCost, heffects]
    · exact nomatch hkey
  · exact starts_callMissed fnId rfl
  · split
    · exact ⟨rfl, .inr ⟨.memo, rfl⟩⟩
    · exact starts_callMissed fnId rfl

variable (vm) in
theorem reports_call (fnId arity : Nat) : (vm.call program host input budget fnId arity).Quiet budget ∨
      ∃ a f, Vm.attemptOp vm.memory.stack (.call fnId arity) = some a ∧ program.functions[a.fnId]? = some f ∧
        Reports host input budget vm a f (vm.call program host input budget fnId arity) := by
  unfold Vm.call
  split
  · exact .inl Outcome.quiet_quiet
  · rename_i f hf
    split
    · exact .inl Outcome.quiet_quiet
    · rename_i hlen
      let a : Attempt := ⟨.call, fnId, (vm.memory.stack.take arity).reverse⟩
      have hstarts : ∀ b, Starts host input b vm a f
          (vm.callChecked host input b fnId f a.args (vm.memory.stack.drop arity)) := fun b =>
        starts_callChecked fnId a.args _
      have hchecked := fun b => starts_checked vm (by simp [a]) (hstarts b)
      refine (reports_charge (a := a) rfl (fun b => (hchecked b).1)
        fun b => (hchecked b).2.imp_right .inr).imp_right fun h => ⟨a, f, ?_, hf, h⟩
      show (if vm.memory.stack.length < arity then none else some a) = some a
      rw [if_neg hlen]

theorem starts_reuse (fnId : Nat) (args below : List Value) (hframes : vm'.frames ≠ []) :
    Starts host input budget vm ⟨.tailCall, fnId, args⟩ f (vm'.reuse budget fnId f args below) := by
  unfold Vm.reuse
  split
  · rename_i hnil
    exact absurd hnil hframes
  · split
    · rename_i hsize
      exact ⟨rfl, .inl ⟨rfl, .inr (.inr (.inr (.inr hsize)))⟩⟩
    · exact ⟨rfl, .inr ⟨.frame, rfl⟩⟩

variable (vm) in
theorem reports_tailCall (fnId arity : Nat) (hframes : vm.frames ≠ []) :
    (vm.tailCall program host input budget fnId arity).Quiet budget ∨
      ∃ a f, Vm.attemptOp vm.memory.stack (.tailCall fnId arity) = some a ∧ program.functions[a.fnId]? = some f ∧
        Reports host input budget vm a f (vm.tailCall program host input budget fnId arity) := by
  unfold Vm.tailCall
  split
  · exact .inl Outcome.quiet_quiet
  · rename_i f hf
    split
    · exact .inl Outcome.quiet_quiet
    · rename_i hlen
      let a : Attempt := ⟨.tailCall, fnId, (vm.memory.stack.take arity).reverse⟩
      have hstarts : ∀ b, Starts host input b vm a f (hooked input b vm
          (fun vm v => ⟨vm.collapse v, b, [.activated .tailCall .jit fnId a.args], none⟩)
          fun vm => vm.reuse b fnId f a.args (vm.memory.stack.drop arity)) := fun b =>
        starts_hooked (by simp [a]) (fun _ _ => ⟨rfl, .inr ⟨.jit, rfl⟩⟩) fun _ =>
          starts_reuse fnId a.args _ hframes
      have hchecked := fun b => starts_checked vm (by simp [a]) (hstarts b)
      refine (reports_charge (a := a) rfl (fun b => (hchecked b).1)
        fun b => (hchecked b).2.imp_right .inr).imp_right fun h => ⟨a, f, ?_, hf, h⟩
      show (if vm.memory.stack.length < arity then none else some a) = some a
      rw [if_neg hlen]

variable (vm) in
theorem reports_callClosure (arity : Nat) : (vm.callClosure program budget arity).Quiet budget ∨
      ∃ a f, Vm.attemptOp vm.memory.stack (.callClosure arity) = some a ∧ program.functions[a.fnId]? = some f ∧
        Reports host input budget vm a f (vm.callClosure program budget arity) := by
  unfold Vm.callClosure
  split
  · exact .inl Outcome.quiet_quiet
  · rename_i callee hcallee
    dsimp only
    split
    · rename_i fnId hash captures
      split
      · exact .inl Outcome.quiet_quiet
      · rename_i f hf
        have htake : (vm.memory.stack.set arity .unit).take arity = vm.memory.stack.take arity := by
          rw [take_set_of_le (Nat.le_refl arity)]
        let a : Attempt := ⟨.callClosure, fnId, captures ++ (vm.memory.stack.take arity).reverse⟩
        have hstarts : ∀ b, Starts host input b vm a f (enter b .callClosure fnId f
            (captures ++ ((vm.memory.stack.set arity .unit).take arity).reverse) none
            ((vm.withStack (vm.memory.stack.set arity .unit)).withStack
              ((vm.memory.stack.set arity .unit).drop (arity + 1)))) := fun b => by
          rw [htake]
          exact starts_enter (a := a) none rfl (by simp [a])
        refine (reports_charge (a := a) rfl hstarts fun b => .inr (.inl rfl)).imp_right
          fun h => ⟨a, f, ?_, hf, h⟩
        simp only [Vm.attemptOp, hcallee]
        rfl
    · exact .inl Outcome.quiet_quiet

theorem reports_invoke (fnId : Nat) (args : List Value) :
    (vm.invoke program host input budget fnId args).Quiet budget ∨ ∃ f, program.functions[fnId]? = some f ∧
        Reports host input budget vm ⟨vm.invokeRoute, fnId, args⟩ f
          (vm.invoke program host input budget fnId args) := by
  unfold Vm.invoke
  split
  · exact .inl Outcome.quiet_quiet
  · rename_i f hf
    split
    · exact .inl Outcome.quiet_quiet
    · let a : Attempt := ⟨vm.invokeRoute, fnId, args⟩
      let inner : Vm := { vm with natives := .runTo vm.frames.length :: vm.natives }
      have hfree : a.route.charges = false := vm.charges_invokeRoute
      have hroute : a.route ≠ .callClosure := vm.invokeRoute_ne_callClosure
      have htail : a.route ≠ .tailCall := fun h => by simp [h, Route.charges] at hfree
      have harg : a.arg = fun i => some (args.getD i .unit) := by
        funext i
        show (if a.route.charges then _ else _) = _
        rw [hfree]
        rfl
      have hstarts : Starts host input budget vm a f (hooked input budget inner
          (fun inner v => ⟨inner.leave (.ok v), budget, [.activated vm.invokeRoute .jit fnId args], none⟩)
          fun inner => enter budget vm.invokeRoute fnId f args none inner) :=
        starts_hooked hroute (fun _ _ => ⟨rfl, .inr ⟨.jit, rfl⟩⟩) fun _ =>
          starts_enter (a := a) none rfl htail
      have hchecked := starts_checked inner hroute hstarts
      rw [harg] at hchecked
      obtain ⟨⟨hbudget, ⟨hevents, -⟩ | ⟨start, hevents⟩⟩, hpasses⟩ := hchecked
      · exact .inl ⟨hevents, hbudget⟩
      · refine .inr ⟨f, hf, .free start (.inl hfree) hbudget hevents (.inr (hpasses.resolve_left ?_))⟩
        rw [hevents]
        simp

/-! ### One step -/

theorem Attempt.Doomed.congr (hframes : vm'.frames.length = vm.frames.length)
    (h : a.Doomed host input vm' f) : a.Doomed host input vm f := by
  unfold Attempt.Doomed at h ⊢
  rwa [hframes] at h

theorem Reports.congr (hframes : vm'.frames.length = vm.frames.length)
    (h : Reports host input budget vm' a f o) : Reports host input budget vm a f o := by
  cases h with
  | refused message hroute hnote hevents hbudget => exact .refused message hroute hnote hevents hbudget
  | vain hroute hcost hnote hevents hdoomed =>
    exact .vain hroute hcost hnote hevents (hdoomed.congr hframes)
  | charged start hroute hcost hnote hevents hpasses =>
    exact .charged start hroute hcost hnote hevents hpasses
  | free start hfree hbudget hevents hpasses => exact .free start hfree hbudget hevents hpasses

theorem quiet_withList {text : String} {k : Vm → Value → List Value → Outcome}
    (hk : ∀ vm f items, (k vm f items).Quiet budget) : (vm.withList budget text k).Quiet budget := by
  unfold Vm.withList
  split
  · dsimp only
    split
    · exact hk _ _ _
    · exact Outcome.quiet_quiet
    · exact Outcome.quiet_quiet
  · exact Outcome.quiet_quiet

theorem quiet_parallelMap : (vm.parallelMap input budget).Quiet budget :=
  quiet_withList fun _ _ _ => by
    split
    · exact Outcome.quiet_quiet
    · exact ⟨rfl, rfl⟩

theorem quiet_send {op : ConcOp} {args : List Value} : (vm.send host input budget op args).Quiet budget := by
  unfold Vm.send
  split
  · split
    · exact Outcome.quiet_quiet
    · exact ⟨rfl, rfl⟩
    · exact Outcome.quiet_quiet
  · exact Outcome.quiet_quiet

theorem quiet_runConcOp {op : String} {args : List Value}
    (h : vm.runConcOp host input budget op args = some o) : o.Quiet budget := by
  unfold Vm.runConcOp at h
  split at h
  · exact some.inj h ▸ quiet_send
  · exact some.inj h ▸ quiet_send
  · exact some.inj h ▸ quiet_send
  · obtain ⟨r, -, rfl⟩ := map_eq_some_iff.mp h
    exact Outcome.quiet_quiet

theorem quiet_effectCall {kindIdx opIdx arity : Nat}
    (h : vm.effectCall program host input budget kindIdx opIdx arity = some o) : o.Quiet budget := by
  unfold Vm.effectCall at h
  split at h
  · exact some.inj h ▸ Outcome.quiet_quiet
  · dsimp only at h
    split at h
    · split at h
      · exact some.inj h ▸ Outcome.quiet_quiet
      · exact some.inj h ▸ Outcome.quiet_quiet
      · exact quiet_runConcOp h
      · exact some.inj h ▸ Outcome.quiet_quiet
    all_goals exact some.inj h ▸ Outcome.quiet_quiet

theorem reports_perform {frame : Frame} {frames : List Frame} {op : Op} (hvm : vm.frames = frame :: frames)
    (h : vm.perform program host input budget frame frames op = some o) :
    o.Quiet budget ∨ ∃ a f, Vm.attemptOp vm.memory.stack op = some a ∧ program.functions[a.fnId]? = some f ∧
      Reports host input budget vm a f o := by
  let advanced : Vm := { vm with frames := { frame with pc := frame.pc + 1 } :: frames }
  have hlength : advanced.frames.length = vm.frames.length := by rw [hvm]; rfl
  have lift : ∀ {o : Outcome}, (∃ a f, Vm.attemptOp advanced.memory.stack op = some a ∧
      program.functions[a.fnId]? = some f ∧ Reports host input budget advanced a f o) →
      ∃ a f, Vm.attemptOp vm.memory.stack op = some a ∧ program.functions[a.fnId]? = some f ∧
        Reports host input budget vm a f o :=
    fun ⟨a, f, ha, hf, hreports⟩ => ⟨a, f, ha, hf, hreports.congr hlength⟩
  unfold Vm.perform at h
  dsimp only at h
  split at h
  · exact some.inj h ▸ (reports_call advanced _ _).imp_right lift
  · exact some.inj h ▸
      (reports_tailCall advanced _ _ (cons_ne_nil _ _)).imp_right lift
  · exact some.inj h ▸ (reports_callClosure advanced _).imp_right lift
  · exact .inl (some.inj h ▸ Outcome.quiet_quiet)
  · exact .inl (some.inj h ▸ quiet_withList fun _ _ _ => Outcome.quiet_quiet)
  · exact .inl (some.inj h ▸ quiet_withList fun _ _ _ => Outcome.quiet_quiet)
  · exact .inl (some.inj h ▸ quiet_withList fun _ _ _ => Outcome.quiet_quiet)
  · exact .inl (some.inj h ▸ Outcome.quiet_quiet)
  · exact .inl (some.inj h ▸ quiet_parallelMap)
  · exact .inl (quiet_effectCall h)
  · obtain ⟨exec, -, rfl⟩ := map_eq_some_iff.mp h
    exact .inl Outcome.quiet_quiet

theorem fetch_frames {frame : Frame} {frames : List Frame} {op : Op}
    (h : vm.fetch program = some (frame, frames, op)) : vm.frames = frame :: frames := by
  unfold Vm.fetch at h
  split at h
  · exact nomatch h
  · rename_i frame' frames' hvm
    obtain ⟨f, -, h⟩ := bind_eq_some_iff.mp h
    obtain ⟨op', -, h⟩ := bind_eq_some_iff.mp h
    cases h
    exact hvm

theorem reports_dispatch (hcontrol : vm.control = .run) (h : vm.dispatch program host input budget = some o) :
    o.Quiet budget ∨ ∃ a f, vm.attempt program = some a ∧ program.functions[a.fnId]? = some f ∧
      Reports host input budget vm a f o := by
  unfold Vm.dispatch at h
  split at h
  · exact .inl (some.inj h ▸ Outcome.quiet_quiet)
  · rename_i hsteps
    dsimp only at h
    split at h
    · exact .inl (some.inj h ▸ Outcome.quiet_quiet)
    · rename_i frame frames op hfetch
      refine (reports_perform (fetch_frames hfetch) h).imp_right ?_
      rintro ⟨a, f, ha, hf, hreports⟩
      have hlength : { vm with steps := vm.steps + 1 }.frames.length = vm.frames.length := rfl
      refine ⟨a, f, ?_, hf, hreports.congr hlength⟩
      have hfetch' : vm.fetch program = some (frame, frames, op) := hfetch
      unfold Vm.attempt
      rw [hcontrol]
      dsimp only
      rw [if_neg hsteps, hfetch']
      exact ha

/-- **What a step reports**: nothing, or the call it attempts. -/
theorem step_reports (h : vm.step program host input budget = some o) :
    o.Quiet budget ∨ ∃ a f, vm.attempt program = some a ∧ program.functions[a.fnId]? = some f ∧
      Reports host input budget vm a f o := by
  unfold Vm.step at h
  split at h
  · exact nomatch h
  · exact nomatch h
  · rename_i hcontrol
    exact reports_dispatch hcontrol h
  · rename_i fnId hash captures args hcontrol
    obtain rfl := some.inj h
    refine (reports_invoke fnId (captures ++ args)).imp_right ?_
    rintro ⟨f, hf, hreports⟩
    exact ⟨⟨vm.invokeRoute, fnId, captures ++ args⟩, f, by simp only [Vm.attempt, hcontrol], hf, hreports⟩
  · exact .inl (some.inj h ▸ Outcome.quiet_quiet)
  · rename_i fnId args hcontrol
    obtain rfl := some.inj h
    refine (reports_invoke fnId args).imp_right ?_
    rintro ⟨f, hf, hreports⟩
    exact ⟨⟨vm.invokeRoute, fnId, args⟩, f, by simp only [Vm.attempt, hcontrol], hf, hreports⟩
  · exact .inl (some.inj h ▸ Outcome.quiet_quiet)
  · split at h
    · exact nomatch h
    · exact nomatch h
    · exact .inl (some.inj h ▸ Outcome.quiet_quiet)
  · split at h
    · exact .inl (some.inj h ▸ Outcome.quiet_quiet)
    · exact .inl (some.inj h ▸ Outcome.quiet_quiet)
  · split at h
    · exact .inl (some.inj h ▸ Outcome.quiet_quiet)
    · exact nomatch h
    · exact .inl (some.inj h ▸ Outcome.quiet_quiet)
  · obtain ⟨turn, -, rfl⟩ := map_eq_some_iff.mp h
    exact .inl Outcome.quiet_quiet
  · obtain ⟨answers, -, rfl⟩ := map_eq_some_iff.mp h
    exact .inl Outcome.quiet_quiet

end Reports

end LexLang.Machine
