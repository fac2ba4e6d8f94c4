/-
# LexLang.Trace.Effects — what a machine does for an effect

From where an effect is begun up to where it has its result a machine only moves between the parts of natives
(`Going`), unless a function of the program is called. `EffectBegins` says what is left when the arguments have
been popped: with an override the machine has the result at once (`overridden`).
-/
import LexLang.Trace.Alike

namespace LexLang.Trace

open LexLang.Machine
open List Option

/-- The machine, with an effect on top of what waits for calls. -/
def inEffect (vm : Vm) (parts : List Native) (control : Control) : Vm :=
  { vm with natives := parts ++ .effectCall :: vm.natives, control }

/-- What an effect may come to: a function is called, or a thread is gone. -/
def Onward (control : Control) : Prop :=
  control.Effectful ∨ control = .crashed ∨ ∃ callee args, control = .invokeClosure callee args

/-- An effect is under way, and nothing but the natives has changed. -/
inductive Amid (vm : Vm) : Vm → Prop
  | mk {parts : List Native} (control : Control) (hparts : Parts parts)
      (hloop : ∀ native ∈ parts, native.onLoop = false) : Amid vm (inEffect vm parts control)

/-- **The effect goes on.** -/
structure Going (vm u : Vm) : Prop where
  amid : Amid vm u
  onward : Onward u.control

section Effects

variable {program : Program} {host : Host} {nodeIds : Nat → Nat → String} {input : Input} {budget : Budget}
  {u vm vm₀ : Vm} {o : Outcome}

theorem amid_start (vm : Vm) (control : Control) : Amid vm (inEffect vm [] control) :=
  .mk control parts_nil fun _ h => nomatch h

variable {control : Control}

theorem Amid.goto (h : Amid vm u) (hcontrol : Onward control) : Going vm (u.goto control) := by
  obtain ⟨-, hparts, hloop⟩ := h
  exact ⟨.mk control hparts hloop, hcontrol⟩

theorem Amid.await (h : Amid vm u) {native : Native} (hpart : native.isPart = true)
    (hloop : native.onLoop = false) (hcontrol : Onward control) : Going vm (u.await native control) := by
  obtain ⟨-, hparts, hbelow⟩ := h
  refine ⟨.mk control (hparts.cons hpart) fun other hother => ?_, hcontrol⟩
  rcases mem_cons.mp hother with rfl | hother
  · exact hloop
  · exact hbelow other hother

/-- What an effect does leaves the rest of the machine alone. -/
theorem walk_going (vm : Vm) : Walk (Amid vm) (fun _ => False) (Going vm) where
  withStack _ h := h
  withSteps _ h := h
  join _ h := h.elim
  resume _ h := h.elim
  raise _ h := h.elim
  awaitOnLoop _ _ _ _ h := h.elim
  crash h := (h.resolve_right id).goto (.inr (.inl rfl))
  goto hcontrol h := h.goto (.inl hcontrol)
  await hpart hloop hcontrol h := h.await hpart hloop (.inl hcontrol)
  awaitCall hpart hloop f args h := h.await hpart hloop (.inr (.inr ⟨f, args, rfl⟩))

/-! ## Where an effect begins -/

/-- **An effect is begun**: `vm₀` is the machine without its arguments. -/
structure EffectBegins (program : Program) (host : Host) (nodeIds : Nat → Nat → String) (vm : Vm) (c : EffectSite)
    (vm₀ : Vm) : Prop where
  control : vm.control = .run
  natives : vm₀.natives = vm.natives
  frames : vm₀.frames.length = vm.frames.length
  shown (input : Input) (budget : Budget) :
    happening program host nodeIds input budget vm = some (.effectStarted c)
  overridden (input : Input) (budget : Budget) (v : Value) (h : input.overrideEffect = some v) :
    ∃ o, vm.step program host input budget = some o ∧ o.vm = inEffect vm₀ [] (.replied (.ok v))

variable {c : EffectSite}

/-- The instruction that begins an effect. -/
theorem effectCall_begins {nodeId : String} {kindIdx opIdx arity : Nat}
    (hshown : effectHappening program u nodeId kindIdx opIdx arity = some (.effectStarted c))
    (ho : u.effectCall program host input budget kindIdx opIdx arity = some o) :
    Going (u.withStack (u.memory.stack.drop arity)) o.vm ∧
      ∀ (input : Input) (budget : Budget) (v : Value), input.overrideEffect = some v →
        ∃ o, u.effectCall program host input budget kindIdx opIdx arity = some o ∧
          o.vm = inEffect (u.withStack (u.memory.stack.drop arity)) [] (.replied (.ok v)) := by
  unfold effectHappening at hshown
  unfold Vm.effectCall at ho ⊢
  by_cases harity : u.memory.stack.length < arity
  · rw [if_pos harity] at hshown
    exact nomatch hshown
  · simp only [if_neg harity] at hshown ho ⊢
    split at hshown
    · rename_i args kind op hargs hkind hop
      simp only [hargs, hkind, hop] at ho ⊢
      have hwalk := walk_going (u.withStack (u.memory.stack.drop arity))
      have hamid := amid_start (u.withStack (u.memory.stack.drop arity)) u.control
      refine ⟨?_, fun input' budget' v hv => ?_⟩
      · split at ho
        · exact some.inj ho ▸ hwalk.goto trivial hamid
        · exact some.inj ho ▸ hwalk.runParserOp hamid _
        · exact hwalk.runConcOp hamid ho
        · exact some.inj ho ▸ hwalk.goto trivial hamid
      · rw [hv]
        exact ⟨_, rfl, rfl⟩
    · exact nomatch hshown

/-- No effect is begun. -/
def Effectless (shown : Option Happening) : Prop := ∀ c, shown ≠ some (.effectStarted c)

section Effectless

variable {f : Function} {shown : Option Happening} {refused : VmError → Option Happening}

theorem effectless_some {h : Happening} (hne : ∀ c, h ≠ .effectStarted c) : Effectless (some h) := fun c heq =>
  hne c (some.inj heq)

theorem Effectless.charged (h : Effectless shown) : Effectless (whenCharged budget f shown) := by
  unfold whenCharged
  split
  · exact h
  · split
    · exact nofun
    · exact h

theorem Effectless.checked (h : Effectless shown) {arg : Nat → Option Value} (hrefused : ∀ e, Effectless (refused e)) :
    Effectless (whenChecked host f arg refused shown) := by
  unfold whenChecked
  split
  · exact h
  · exact hrefused _
  · exact nofun

theorem Effectless.hooked (h : Effectless shown) {answered : Value → Option Happening}
    (hrefused : ∀ e, Effectless (refused e)) (hanswered : ∀ v, Effectless (answered v)) :
    Effectless (whenHooked input refused answered shown) := by
  unfold whenHooked
  split
  · exact h
  · split
    · exact hrefused _
    · exact hanswered _
    · exact h

theorem Effectless.entered (h : Effectless shown) {depth : Nat} {args : List Value}
    (hrefused : ∀ e, Effectless (refused e)) : Effectless (whenEntered depth f args refused shown) := by
  unfold whenEntered
  split
  · exact nofun
  · split
    · exact hrefused _
    · exact h

theorem effectless_call (nodeId : String) (fnId arity : Nat) :
    Effectless (callHappening program host input budget u nodeId fnId arity) := by
  unfold callHappening
  split
  · exact nofun
  · split
    · exact nofun
    · have hmissed : ∀ (f : Function) (c : CallSite) (args : List Value),
          Effectless (whenHooked input (fun e => some (.rejected c e)) (fun v => some (.answered c v))
            (whenEntered u.frames.length f args (fun e => some (.overflowed c e)) (some (.invoked c)))) := by
        intro f c args
        refine Effectless.hooked (Effectless.entered ?_ ?_) ?_ ?_
        · exact effectless_some nofun
        · exact fun _ => effectless_some nofun
        · exact fun _ => effectless_some nofun
        · exact fun _ => effectless_some nofun
      refine Effectless.charged (Effectless.checked ?_ fun _ => effectless_some nofun)
      split
      · exact nofun
      · exact hmissed _ _ _
      · split
        · exact effectless_some nofun
        · exact hmissed _ _ _

theorem effectless_tailCall (nodeId : String) (fnId arity : Nat) :
    Effectless (tailCallHappening program host input budget u nodeId fnId arity) := by
  unfold tailCallHappening
  split
  · exact nofun
  · split
    · exact nofun
    · refine Effectless.charged (Effectless.checked (Effectless.hooked ?_ ?_ ?_) ?_)
      · split
        · exact nofun
        · exact effectless_some nofun
      · exact fun _ => effectless_some nofun
      · exact fun _ => effectless_some nofun
      · exact fun _ => effectless_some nofun

theorem effectless_callClosure (nodeId : String) (arity : Nat) :
    Effectless (callClosureHappening program budget u nodeId arity) := by
  unfold callClosureHappening
  split
  · split
    · exact nofun
    · refine Effectless.charged (Effectless.entered ?_ ?_)
      · exact effectless_some nofun
      · exact fun _ => effectless_some nofun
  · exact nofun

theorem effectless_invoke (fnId : Nat) (args : List Value) :
    Effectless (invokeHappening program host input u fnId args) := by
  unfold invokeHappening
  split
  · exact nofun
  · split
    · exact nofun
    · refine Effectless.checked (Effectless.hooked (Effectless.entered ?_ ?_) ?_ ?_) ?_
      · exact effectless_some nofun
      · exact fun _ _ => nofun
      · exact fun _ _ => nofun
      · exact fun _ _ => nofun
      · exact fun _ _ => nofun

end Effectless

/-- **Only `EffectCall` begins an effect.** -/
theorem dispatch_begins (hshown : dispatchHappening program host nodeIds input budget vm = some (.effectStarted c)) :
    vm.steps ≤ vm.stepLimit ∧ ∃ frame frames kindIdx opIdx arity,
      ({ vm with steps := vm.steps + 1 } : Vm).fetch program = some (frame, frames, .effectCall kindIdx opIdx arity) ∧
        effectHappening program
          { vm with steps := vm.steps + 1, frames := { frame with pc := frame.pc + 1 } :: frames }
          (nodeIds frame.fnId frame.pc) kindIdx opIdx arity = some (.effectStarted c) := by
  unfold dispatchHappening at hshown
  split at hshown
  · cases hshown
  · rename_i hlimit
    dsimp only at hshown
    split at hshown
    · cases hshown
    · rename_i frame frames op hfetch
      refine ⟨Nat.le_of_not_lt hlimit, ?_⟩
      unfold performHappening at hshown
      dsimp only at hshown
      split at hshown
      · exact (effectless_call _ _ _ _ hshown).elim
      · exact (effectless_tailCall _ _ _ _ hshown).elim
      · exact (effectless_callClosure _ _ _ hshown).elim
      · unfold returnHappening at hshown
        split at hshown
        · cases hshown
        · cases hshown
      · exact ⟨frame, frames, _, _, _, hfetch, hshown⟩
      · cases hshown

/-- **Where an effect is begun**, the rest of the machine waits for it. -/
theorem step_begins (hshown : happening program host nodeIds input budget vm = some (.effectStarted c))
    (ho : vm.step program host input budget = some o) :
    ∃ vm₀, EffectBegins program host nodeIds vm c vm₀ ∧ Going vm₀ o.vm := by
  have hrun : vm.control = .run := by
    unfold happening at hshown
    split at hshown
    · assumption
    · exact (effectless_invoke _ _ _ hshown).elim
    · exact (effectless_invoke _ _ _ hshown).elim
    · split at hshown
      · exact nomatch hshown
      · exact nomatch hshown
    · exact nomatch hshown
  have hstep : ∀ (input : Input) (budget : Budget),
      vm.step program host input budget = vm.dispatch program host input budget := by
    intro input budget
    unfold Vm.step
    rw [hrun]
  have hhappening : ∀ (input : Input) (budget : Budget),
      happening program host nodeIds input budget vm = dispatchHappening program host nodeIds input budget vm := by
    intro input budget
    unfold happening
    rw [hrun]
  rw [hhappening] at hshown
  obtain ⟨hlimit, frame, frames, kindIdx, opIdx, arity, hfetch, heffect⟩ := dispatch_begins hshown
  have hdispatch : ∀ (input : Input) (budget : Budget), vm.dispatch program host input budget =
      Vm.effectCall program host input budget
        { vm with steps := vm.steps + 1, frames := { frame with pc := frame.pc + 1 } :: frames } kindIdx opIdx
        arity := by
    intro input budget
    unfold Vm.dispatch
    rw [if_neg (Nat.not_lt_of_le hlimit)]
    dsimp only
    rw [hfetch]
    rfl
  have hshown' : ∀ (input : Input) (budget : Budget),
      dispatchHappening program host nodeIds input budget vm = some (.effectStarted c) := by
    intro input budget
    unfold dispatchHappening
    rw [if_neg (Nat.not_lt_of_le hlimit)]
    dsimp only
    rw [hfetch]
    exact heffect
  rw [hstep, hdispatch] at ho
  obtain ⟨hgoing, hoverridden⟩ := effectCall_begins heffect ho
  refine ⟨_, ?_, hgoing⟩
  refine ⟨hrun, rfl, ?_, ?_, ?_⟩
  · have hframes := congrArg List.length (fetch_frames hfetch)
    exact hframes.symm
  · intro input budget
    rw [hhappening]
    exact hshown' input budget
  · intro input budget v hv
    rw [hstep, hdispatch]
    exact hoverridden input budget v hv

/-! ## While an effect goes on -/

/-- What waits inside of an effect is a part of it, or the effect itself. -/
theorem amid_below {parts natives : List Native} {native : Native} (hparts : Parts parts)
    (hloop : ∀ native ∈ parts, native.onLoop = false)
    (heq : parts ++ .effectCall :: vm₀.natives = native :: natives) :
    (parts = [] ∧ native = .effectCall ∧ natives = vm₀.natives) ∨
      Amid vm₀ { inEffect vm₀ parts control with natives } := by
  cases parts with
  | nil =>
    obtain ⟨rfl, rfl⟩ := List.cons.inj heq
    exact .inl ⟨rfl, rfl, rfl⟩
  | cons first parts =>
    obtain ⟨rfl, rfl⟩ := List.cons.inj heq
    right
    refine .mk control (fun other hother => hparts other ?_) fun other hother => hloop other ?_
    · exact mem_cons_of_mem _ hother
    · exact mem_cons_of_mem _ hother

/-- **One step of an effect**: a thread is gone, or the effect goes on, or it has its result. -/
theorem Going.step (h : Going vm₀ vm) (ho : vm.step program host input budget = some o)
    (hcall : ∀ callee args, vm.control ≠ .invokeClosure callee args) : o.vm.control = .crashed ∨
      (Going vm₀ o.vm ∧ happening program host nodeIds input budget vm = none) ∨
      ∃ result, happening program host nodeIds input budget vm = some (.effectEnded result) ∧
        o.vm = ({ vm₀ with control := .replied result } : Vm).afterEffect input result := by
  have honward := h.onward
  obtain ⟨control, hparts, hloop⟩ := h.amid
  rename_i parts
  have hamid : Amid vm₀ (inEffect vm₀ parts control) := .mk control hparts hloop
  have hwalk := walk_going vm₀
  unfold happening
  unfold Vm.step at ho
  change Onward control at honward
  change ∀ callee args, control ≠ .invokeClosure callee args at hcall
  rcases honward with heffectful | rfl | ⟨callee, args, rfl⟩
  · cases control with
    | parse bytes node pos =>
      right
      left
      exact ⟨some.inj ho ▸ hwalk.parse hamid _ _ _, rfl⟩
    | parsed result =>
      simp only [inEffect] at ho
      split at ho
      · exact .inl (some.inj ho ▸ rfl)
      · rename_i native natives heq
        obtain rfl := some.inj ho
        rcases amid_below hparts hloop heq with ⟨rfl, rfl, rfl⟩ | hbelow
        · exact .inl rfl
        · exact .inr (.inl ⟨hwalk.afterParse hbelow _ _, rfl⟩)
    | replied result =>
      simp only [inEffect] at ho ⊢
      split at ho
      · rename_i natives heq
        obtain rfl := some.inj ho
        cases parts with
        | nil =>
          obtain ⟨-, rfl⟩ := List.cons.inj heq
          exact .inr (.inr ⟨result, rfl, rfl⟩)
        | cons first parts =>
          obtain ⟨rfl, -⟩ := List.cons.inj heq
          exact nomatch hparts _ (mem_cons_self ..)
      · rename_i heq
        exact (append_ne_nil_of_right_ne_nil _ (cons_ne_nil _ _) heq).elim
      · exact .inl (some.inj ho ▸ rfl)
    | awaitTurn op msg =>
      right
      left
      obtain ⟨turn, -, rfl⟩ := map_eq_some_iff.mp ho
      exact ⟨hwalk.awaitCall rfl rfl _ _ hamid, rfl⟩
    | _ => exact heffectful.elim
  · exact nomatch ho
  · exact (hcall callee args rfl).elim

end Effects

end LexLang.Trace
