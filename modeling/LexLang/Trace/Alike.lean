/-
# LexLang.Trace.Alike — machines that are answered alike

What a machine does between its effects depends on the native code, the budget and the workers of a `par_map`.
Where these answer as before, a step that does not fail is the same step, and is the same to a tracer
(`step_alike`).
-/
import LexLang.Trace.Shows

namespace LexLang.Trace

open LexLang.Machine
open Option

/-- **The calls of a machine are answered alike**: what was charged before can be charged. -/
structure AnsweredAlike (input input' : Input) (budget budget' : Budget) : Prop where
  hook : input'.hook = input.hook
  answers : input'.answers = input.answers
  budget (cost : Nat) (left : Budget) (h : budget.noteCallBudget cost = .ok left) :
    ∃ left', budget'.noteCallBudget cost = .ok left'

/-- Neither an error nor a crash has stopped the machine. -/
structure Alive (vm : Vm) : Prop where
  crashed : vm.control ≠ .crashed
  failed (e : VmError) : vm.control ≠ .finished (.error e)

/-- Where the first outcome is no failure, the second is the same machine, and the same to a tracer. -/
def Alike (o o' : Outcome) (shown shown' : Option Happening) : Prop :=
  Alive o.vm → o'.vm = o.vm ∧ shown' = shown

section Alike

variable {program : Program} {host : Host} {nodeIds : Nat → Nat → String} {input input' : Input}
  {budget budget' : Budget} {u vm : Vm} {o o' : Outcome} {shown shown' : Option Happening}

theorem not_alive_raise (e : VmError) : ¬ Alive (u.raise e) := by
  intro h
  have hfailed := h.failed e
  have hcrashed := h.crashed
  unfold Vm.raise Vm.leave at hfailed hcrashed
  split at hfailed
  · exact hfailed rfl
  · rename_i hloop
    split at hcrashed
    · rename_i base natives hnatives
      exact hloop base natives hnatives
    · exact hcrashed rfl

theorem alike_of_eq (hvm : o'.vm = o.vm) : Alike o o' shown shown := fun _ => ⟨hvm, rfl⟩

theorem alike_of_raise {e : VmError} (hvm : o.vm = u.raise e) : Alike o o' shown shown' := fun halive =>
  (not_alive_raise e (hvm ▸ halive)).elim

theorem alike_of_crash (hvm : o.vm.control = .crashed) : Alike o o' shown shown' := fun halive =>
  (halive.crashed hvm).elim

/-! ## The checks in front of a call -/

variable (h : AnsweredAlike input input' budget budget')
include h

variable {f : Function}

theorem Alike.charge {fnId : Nat}
    {next next' : Budget → Outcome} (hnext : ∀ b b', Alike (next b) (next' b') shown shown') :
    Alike (charge budget fnId f u next) (charge budget' fnId f u next') (whenCharged budget f shown)
      (whenCharged budget' f shown') := by
  unfold Machine.charge whenCharged
  dsimp only
  by_cases hcost : callBudgetCost f = 0
  · simp only [if_pos hcost]
    exact hnext _ _
  · simp only [if_neg hcost]
    cases hnote : budget.noteCallBudget (callBudgetCost f) with
    | error message => exact alike_of_raise rfl
    | ok left =>
      obtain ⟨left', hnote'⟩ := h.budget _ _ hnote
      simp only [hnote']
      exact hnext left left'

variable {refused : VmError → Option Happening}

omit h in
theorem Alike.checked (hnext : Alike o o' shown shown') {arg : Nat → Option Value} : Alike (checked host budget f arg u o) (checked host budget' f arg u o')
      (whenChecked host f arg refused shown) (whenChecked host f arg refused shown') := by
  unfold Machine.checked whenChecked
  cases checkRefinements host f.name arg 0 f.refinements with
  | ok passed => exact hnext
  | error fault =>
    cases fault with
    | err e => exact alike_of_raise rfl
    | panicked => exact alike_of_crash rfl

variable {shownOf : Value → Option Happening}

omit h in
theorem Alike.hooked (hhook : input'.hook = input.hook) {answered answered' : Vm → Value → Outcome}
    {declined declined' : Vm → Outcome}
    (hanswered : ∀ vm v, Alike (answered vm v) (answered' vm v) (shownOf v) (shownOf v))
    (hdeclined : ∀ steps, Alike (declined { u with steps }) (declined' { u with steps }) shown shown') :
    Alike (hooked input budget u answered declined) (hooked input' budget' u answered' declined')
      (whenHooked input refused shownOf shown) (whenHooked input' refused shownOf shown') := by
  unfold Machine.hooked whenHooked
  rw [hhook]
  cases input.hook with
  | none => exact hdeclined u.steps
  | some answer =>
    dsimp only
    cases answer.result with
    | error e => exact alike_of_raise rfl
    | ok result =>
      cases result with
      | none => exact hdeclined answer.steps
      | some v => exact hanswered _ v

omit h in
theorem vm_enter (budget budget' : Budget) (route : Route) (fnId : Nat) (f : Function) (args : List Value)
    (key : Option (Nat × Nat)) (u : Vm) :
    (enter budget' route fnId f args key u).vm = (enter budget route fnId f args key u).vm := by
  unfold Machine.enter
  by_cases hsize : f.frameSize < args.length
  · rw [if_pos hsize, if_pos hsize]
    rfl
  · rw [if_neg hsize, if_neg hsize]
    dsimp only
    by_cases hfull : maxCallDepth ≤ u.frames.length
    · rw [if_pos hfull, if_pos hfull]
      rfl
    · rw [if_neg hfull, if_neg hfull]

/-! ## Calls -/

omit h in
theorem alike_callMissed (hhook : input'.hook = input.hook) {b b' : Budget} {fnId : Nat}
    {args below : List Value} {key : Option (Nat × Nat)} :
    Alike (u.callMissed input b fnId f args below key) (u.callMissed input' b' fnId f args below key)
      (whenHooked input refused shownOf shown) (whenHooked input' refused shownOf shown) := by
  unfold Vm.callMissed
  apply Alike.hooked hhook
  · exact fun _ _ => alike_of_eq rfl
  · exact fun _ => alike_of_eq (vm_enter ..)

theorem alike_call (nodeId : String) (fnId arity : Nat) :
    Alike (u.call program host input budget fnId arity) (u.call program host input' budget' fnId arity)
      (callHappening program host input budget u nodeId fnId arity)
      (callHappening program host input' budget' u nodeId fnId arity) := by
  unfold Vm.call callHappening
  cases program.functions[fnId]? with
  | none => exact alike_of_eq rfl
  | some f =>
    dsimp only
    by_cases harity : u.memory.stack.length < arity
    · simp only [if_pos harity]
      exact alike_of_eq rfl
    · simp only [if_neg harity]
      refine Alike.charge h fun b b' => Alike.checked ?_
      unfold Vm.callChecked
      cases u.memoKey host fnId f (u.memory.stack.take arity).reverse with
      | none => exact alike_of_eq rfl
      | some key =>
        cases key with
        | none => exact alike_callMissed h.hook
        | some key =>
          dsimp only
          cases u.pureMemo.lookup key with
          | some cached => exact alike_of_eq rfl
          | none => exact alike_callMissed h.hook

omit h in
theorem vm_reuse (b b' : Budget) (fnId : Nat) (f : Function) (args below : List Value) :
    (u.reuse b' fnId f args below).vm = (u.reuse b fnId f args below).vm := by
  unfold Vm.reuse
  split
  · rfl
  · split <;> rfl

theorem alike_tailCall (nodeId : String) (fnId arity : Nat) :
    Alike (u.tailCall program host input budget fnId arity) (u.tailCall program host input' budget' fnId arity)
      (tailCallHappening program host input budget u nodeId fnId arity)
      (tailCallHappening program host input' budget' u nodeId fnId arity) := by
  unfold Vm.tailCall tailCallHappening
  cases program.functions[fnId]? with
  | none => exact alike_of_eq rfl
  | some f =>
    dsimp only
    by_cases harity : u.memory.stack.length < arity
    · simp only [if_pos harity]
      exact alike_of_eq rfl
    · simp only [if_neg harity]
      refine Alike.charge h fun b b' => Alike.checked ?_
      apply Alike.hooked h.hook
      · exact fun _ _ => alike_of_eq rfl
      · exact fun _ => alike_of_eq (vm_reuse ..)

theorem alike_callClosure (nodeId : String) (arity : Nat) :
    Alike (u.callClosure program budget arity) (u.callClosure program budget' arity)
      (callClosureHappening program budget u nodeId arity) (callClosureHappening program budget' u nodeId arity) := by
  unfold Vm.callClosure callClosureHappening
  cases u.memory.stack[arity]? with
  | none => exact alike_of_eq rfl
  | some callee =>
    dsimp only
    cases callee with
    | closure fnId bodyHash captures =>
      dsimp only
      cases program.functions[fnId]? with
      | none => exact alike_of_eq rfl
      | some f => exact Alike.charge h fun b b' => alike_of_eq (vm_enter ..)
    | _ => exact alike_of_eq rfl

theorem alike_invoke (fnId : Nat) (args : List Value) :
    Alike (u.invoke program host input budget fnId args) (u.invoke program host input' budget' fnId args)
      (invokeHappening program host input u fnId args) (invokeHappening program host input' u fnId args) := by
  unfold Vm.invoke invokeHappening
  cases program.functions[fnId]? with
  | none => exact alike_of_eq rfl
  | some f =>
    dsimp only
    by_cases harity : args.length ≠ f.arity
    · simp only [if_pos harity]
      exact alike_of_eq rfl
    · simp only [if_neg harity]
      apply Alike.checked
      apply Alike.hooked h.hook
      · exact fun _ _ => alike_of_eq rfl
      · exact fun _ => alike_of_eq (vm_enter ..)

/-! ## Instructions -/

omit h in
theorem vm_withList {text : String} {k k' : Vm → Value → List Value → Outcome}
    (hk : ∀ u f items, (k' u f items).vm = (k u f items).vm) :
    (u.withList budget' text k').vm = (u.withList budget text k).vm := by
  unfold Vm.withList
  split
  · dsimp only
    split
    · exact hk _ _ _
    · rfl
    · rfl
  · rfl

omit h in
/-- An `EffectCall` that starts no effect fails. -/
theorem not_alive_effectCall {nodeId : String} {kindIdx opIdx arity : Nat}
    (hnone : ∀ c, effectHappening program u nodeId kindIdx opIdx arity ≠ some (.effectStarted c))
    (ho : u.effectCall program host input budget kindIdx opIdx arity = some o) : ¬ Alive o.vm := by
  unfold effectHappening at hnone
  unfold Vm.effectCall at ho
  by_cases harity : u.memory.stack.length < arity
  · rw [if_pos harity] at ho
    exact some.inj ho ▸ not_alive_raise _
  · rw [if_neg harity] at ho hnone
    dsimp only at ho hnone
    split at ho
    · rename_i args kind op hargs hkind hop
      simp only [hargs, hkind, hop] at hnone
      exact (hnone _ rfl).elim
    all_goals
      obtain rfl := some.inj ho
    · exact fun halive => halive.crashed rfl
    · exact fun halive => halive.crashed rfl
    · exact fun halive => halive.crashed rfl
    · exact not_alive_raise _
    · exact not_alive_raise _

theorem alike_perform {frame : Frame} {frames : List Frame} {op : Op}
    (hnone : ∀ c, performHappening program host nodeIds input budget u frame frames op ≠ some (.effectStarted c))
    (ho : u.perform program host input budget frame frames op = some o) (halive : Alive o.vm) :
    ∃ o', u.perform program host input' budget' frame frames op = some o' ∧
      Alike o o' (performHappening program host nodeIds input budget u frame frames op)
        (performHappening program host nodeIds input' budget' u frame frames op) := by
  unfold Vm.perform at ho ⊢
  unfold performHappening at hnone ⊢
  dsimp only at ho hnone ⊢
  split at ho
  · obtain rfl := some.inj ho
    exact ⟨_, rfl, alike_call h _ _ _⟩
  · obtain rfl := some.inj ho
    exact ⟨_, rfl, alike_tailCall h _ _ _⟩
  · obtain rfl := some.inj ho
    exact ⟨_, rfl, alike_callClosure h _ _⟩
  · obtain rfl := some.inj ho
    exact ⟨_, rfl, alike_of_eq rfl⟩
  · obtain rfl := some.inj ho
    exact ⟨_, rfl, alike_of_eq (vm_withList fun _ _ _ => rfl)⟩
  · obtain rfl := some.inj ho
    exact ⟨_, rfl, alike_of_eq (vm_withList fun _ _ _ => rfl)⟩
  · obtain rfl := some.inj ho
    exact ⟨_, rfl, alike_of_eq (vm_withList fun _ _ _ => rfl)⟩
  · obtain rfl := some.inj ho
    exact ⟨_, rfl, alike_of_eq rfl⟩
  · obtain rfl := some.inj ho
    refine ⟨_, rfl, alike_of_eq (vm_withList fun u f items => ?_)⟩
    split <;> rfl
  · exact (not_alive_effectCall hnone ho halive).elim
  · rename_i hcall htail hclosure hreturn _ _ _ _ _ heffect
    obtain ⟨exec, hexec, rfl⟩ := map_eq_some_iff.mp ho
    rw [hexec]
    refine ⟨_, rfl, ?_⟩
    split
    · exact (hcall _ _ rfl).elim
    · exact (htail _ _ rfl).elim
    · exact (hclosure _ rfl).elim
    · exact (hreturn rfl).elim
    · exact (heffect _ _ _ rfl).elim
    · exact alike_of_eq rfl

theorem alike_dispatch (hnone : ∀ c, dispatchHappening program host nodeIds input budget vm ≠ some (.effectStarted c))
    (ho : vm.dispatch program host input budget = some o) (halive : Alive o.vm) :
    ∃ o', vm.dispatch program host input' budget' = some o' ∧
      Alike o o' (dispatchHappening program host nodeIds input budget vm)
        (dispatchHappening program host nodeIds input' budget' vm) := by
  unfold Vm.dispatch at ho ⊢
  unfold dispatchHappening at hnone ⊢
  by_cases hlimit : vm.stepLimit < vm.steps
  · rw [if_pos hlimit] at ho
    exact (not_alive_raise _ (some.inj ho ▸ halive)).elim
  · simp only [if_neg hlimit] at ho hnone ⊢
    cases hfetch : ({ vm with steps := vm.steps + 1 } : Vm).fetch program with
    | none =>
      rw [hfetch] at ho
      exact ((some.inj ho ▸ halive : Alive _).crashed rfl).elim
    | some fetched =>
      obtain ⟨frame, frames, op⟩ := fetched
      simp only [hfetch] at ho hnone ⊢
      exact alike_perform h hnone ho halive

/-! ## One step -/

variable (nodeIds) in
/-- **A step that does not fail is the same step**, where the calls of the machine are answered alike and no effect
is begun or under way. -/
theorem step_alike (hcontrol : ¬ vm.control.Effectful)
    (hnone : ∀ c, happening program host nodeIds input budget vm ≠ some (.effectStarted c))
    (ho : vm.step program host input budget = some o) (halive : Alive o.vm) :
    ∃ o', vm.step program host input' budget' = some o' ∧ o'.vm = o.vm ∧
      happening program host nodeIds input' budget' vm = happening program host nodeIds input budget vm := by
  suffices halike : ∃ o', vm.step program host input' budget' = some o' ∧
      Alike o o' (happening program host nodeIds input budget vm)
        (happening program host nodeIds input' budget' vm) by
    obtain ⟨o', ho', halike⟩ := halike
    exact ⟨o', ho', halike halive⟩
  unfold Vm.step at ho ⊢
  unfold happening at hnone ⊢
  cases hcases : vm.control with
  | idle | crashed =>
    rw [hcases] at ho
    exact nomatch ho
  | run =>
    rw [hcases] at ho hnone
    exact alike_dispatch h hnone ho halive
  | invokeClosure callee args =>
    rw [hcases] at ho
    cases callee with
    | closure fnId bodyHash captures =>
      obtain rfl := some.inj ho
      exact ⟨_, rfl, alike_invoke h _ _⟩
    | _ =>
      obtain rfl := some.inj ho
      exact ⟨_, rfl, alike_of_eq rfl⟩
  | invoke fnId args =>
    rw [hcases] at ho
    obtain rfl := some.inj ho
    exact ⟨_, rfl, alike_invoke h _ _⟩
  | parse | parsed | replied | awaitTurn => exact (hcontrol (hcases ▸ trivial)).elim
  | finished result =>
    rw [hcases] at ho
    dsimp only at ho ⊢
    split at ho
    · exact nomatch ho
    · exact nomatch ho
    · obtain rfl := some.inj ho
      exact ⟨_, rfl, alike_of_eq rfl⟩
  | join items =>
    rw [hcases] at ho
    dsimp only at ho ⊢
    rw [h.answers]
    obtain ⟨answers, hanswers, rfl⟩ := map_eq_some_iff.mp ho
    rw [hanswers]
    exact ⟨_, rfl, alike_of_eq rfl⟩

end Alike

end LexLang.Trace
