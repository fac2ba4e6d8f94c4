/-
# LexLang.Trace.Shows — what a step does, by what it shows

`step_shows` says for each happening what its step does to the two stacks of a machine: the frames, and the
natives that wait for calls. A step that shows nothing moves between the parts of a native, or leaves a loop with
an error; it keeps every frame.

The loop that is under way is on top of the natives wherever an instruction runs (`Placed`).
-/
import LexLang.Machine.Nested
import LexLang.Trace.Happening

namespace LexLang.Trace

open LexLang.Machine
open List Option

/-! ## Natives in their places -/

def OnLoop (natives : List Native) : Prop := ∃ base rest, natives = .runTo base :: rest

/-- The parts of an effect are on top. -/
def InEffect : List Native → Prop
  | [] => False
  | .effectCall :: _ => True
  | native :: natives => native.isPart = true ∧ native.onLoop = false ∧ InEffect natives

/-- What belongs to a loop sits on one, and what belongs to an effect is above one. -/
def Grounded : List Native → Prop
  | [] => True
  | native :: natives =>
    (native.onLoop = true → OnLoop natives) ∧
      (native.isPart = true → native.onLoop = false → InEffect natives) ∧ Grounded natives

/-- The loop does not go on. -/
def Calm : Control → Prop
  | .run | .join _ => False
  | _ => True

theorem calm_of_effectful {control : Control} (h : control.Effectful) : Calm control := by
  cases control with
  | run | join => exact h
  | _ => trivial

/-- **Where instructions run there is a loop**, and where an effect goes on there is one. -/
structure Placed (vm : Vm) : Prop where
  grounded : Grounded vm.natives
  looping : Calm vm.control ∨ OnLoop vm.natives
  effectful : vm.control.Effectful → InEffect vm.natives

variable {natives : List Native}

theorem Grounded.loop (h : Grounded natives) (base : Nat) : Grounded (.runTo base :: natives) :=
  ⟨fun hloop => (nomatch hloop), fun hpart => (nomatch hpart), h⟩

variable {native : Native}

theorem Grounded.below (h : Grounded (native :: natives)) : Grounded natives := h.2.2

theorem InEffect.of_part (h : InEffect (native :: natives)) (hpart : native.isPart = true) : InEffect natives := by
  cases native with
  | effectCall => exact nomatch hpart
  | _ => exact h.2.2

theorem InEffect.cons (h : InEffect natives)
    (hpart : native.isPart = true) (hloop : native.onLoop = false) : InEffect (native :: natives) := by
  cases native with
  | effectCall => trivial
  | _ => exact ⟨hpart, hloop, h⟩

/-- All of these are parts of natives. -/
def Parts (natives : List Native) : Prop := ∀ native ∈ natives, native.isPart = true

theorem parts_nil : Parts [] := fun _ h => nomatch h

theorem Parts.cons (hnative : native.isPart = true) (h : Parts natives) : Parts (native :: natives) := by
  intro other hother
  rcases mem_cons.mp hother with rfl | hother
  · exact hnative
  · exact h other hother

theorem Parts.bases_eq (h : Parts natives) : bases natives = [] := by
  induction natives with
  | nil => rfl
  | cons native natives ih =>
    have hnative := h native (mem_cons_self ..)
    have hrest := ih fun other hother => h other (mem_cons_of_mem _ hother)
    cases native with
    | runTo base => exact nomatch hnative
    | _ => exact hrest

/-! ## What a step does -/

/-- **A step that shows nothing.** -/
inductive Silent (vm vm' : Vm) : Prop
  | crashed (hcontrol : vm'.control = .crashed)
  | stay (popped pushed rest : List Native) (hpopped : Parts popped) (hpushed : Parts pushed)
      (hnatives : vm.natives = popped ++ rest) (hnatives' : vm'.natives = pushed ++ rest)
      (hframes : vm'.frames.length = vm.frames.length)
  | fail (popped : List Native) (base : Nat) (rest : List Native) (e : VmError) (hpopped : Parts popped)
      (hnatives : vm.natives = popped ++ .runTo base :: rest) (hnatives' : vm'.natives = rest)
      (hframes : vm'.frames.length = vm.frames.length) (hcontrol : vm'.control = .finished (.error e))

/-- **The innermost frame is popped**, and its result goes to its caller or leaves the loop. -/
inductive Leaves (vm vm' : Vm) (base : Nat) (rest : List Native) : Prop
  | ret (hnatives' : vm'.natives = vm.natives) (hframes : vm'.frames.length + 1 = vm.frames.length)
      (hbase : base < vm'.frames.length)
  | succeed (v : Value) (hnatives' : vm'.natives = rest) (hframes : vm'.frames.length + 1 = vm.frames.length)
      (hbase : vm'.frames.length ≤ base) (hcontrol : vm'.control = .finished (.ok v))

/-- **What a step does to the stacks of a machine**, by what it is to a tracer. -/
inductive Shows (vm : Vm) : Option Happening → Vm → Prop
  | crashed {shown : Option Happening} {vm' : Vm} (hcontrol : vm'.control = .crashed) : Shows vm shown vm'
  | silent {vm' : Vm} (hsilent : Silent vm vm') : Shows vm none vm'
  | entered {vm' : Vm} (hnatives' : vm'.natives = .runTo vm.frames.length :: vm.natives)
      (hframes : vm'.frames.length = vm.frames.length + 1) : Shows vm (some .entered) vm'
  | invoked (c : CallSite) {vm' : Vm} (hloop : OnLoop vm.natives) (hnatives' : vm'.natives = vm.natives)
      (hframes : vm'.frames.length = vm.frames.length + 1) (hcontrol : vm'.control = .run) :
      Shows vm (some (.invoked c)) vm'
  | rejected (c : CallSite) (e : VmError) {vm' : Vm} (hsilent : Silent vm vm')
      (hcontrol : ∃ e', vm'.control = .finished (.error e')) : Shows vm (some (.rejected c e)) vm'
  | overflowed (c : CallSite) (e : VmError) {vm' : Vm} (hsilent : Silent vm vm')
      (hcontrol : ∃ e', vm'.control = .finished (.error e')) : Shows vm (some (.overflowed c e)) vm'
  | answered (c : CallSite) (v : Value) {vm' : Vm} (hnatives' : vm'.natives = vm.natives)
      (hframes : vm'.frames.length = vm.frames.length) (hcontrol : vm'.control = .run) :
      Shows vm (some (.answered c v)) vm'
  | tailCalled (c : CallSite) {vm' : Vm} (hloop : OnLoop vm.natives) (hnatives' : vm'.natives = vm.natives)
      (hframes : vm'.frames.length = vm.frames.length) (hcontrol : vm'.control = .run) :
      Shows vm (some (.tailCalled c)) vm'
  | tailAnswered (c : CallSite) (v : Value) {vm' : Vm} (base : Nat) (rest : List Native)
      (hnatives : vm.natives = .runTo base :: rest) (hleaves : Leaves vm vm' base rest) :
      Shows vm (some (.tailAnswered c v)) vm'
  | returned (v : Value) {vm' : Vm} (base : Nat) (rest : List Native)
      (hnatives : vm.natives = .runTo base :: rest) (hleaves : Leaves vm vm' base rest) :
      Shows vm (some (.returned v)) vm'
  | effectStarted (c : EffectSite) {vm' : Vm}
      (hsilent : Silent { vm with natives := .effectCall :: vm.natives } vm') :
      Shows vm (some (.effectStarted c)) vm'
  | effectEnded (result : Except String Value) {vm' : Vm} (rest : List Native)
      (hnatives : vm.natives = .effectCall :: rest) (hsilent : Silent { vm with natives := rest } vm') :
      Shows vm (some (.effectEnded result)) vm'

/-! ## Between the parts of a native -/

/-- `u` is `vm` between two parts of a native. -/
structure Between (vm u : Vm) : Prop where
  parts : ∃ popped pushed rest, Parts popped ∧ Parts pushed ∧ vm.natives = popped ++ rest ∧
    u.natives = pushed ++ rest
  frames : u.frames.length = vm.frames.length
  grounded : Grounded u.natives

/-- The loop goes on. -/
structure BetweenLoops (vm u : Vm) : Prop extends Between vm u where
  loop : OnLoop u.natives

/-- The effect goes on. -/
structure BetweenEffects (vm u : Vm) : Prop extends Between vm u where
  effect : InEffect u.natives

section Arms

variable {program : Program} {host : Host} {nodeIds : Nat → Nat → String} {input : Input} {budget : Budget}
  {vm vm' u : Vm} {o : Outcome} {shown : Option Happening}

theorem Between.of_eq (hnatives : u.natives = vm.natives) (hframes : u.frames.length = vm.frames.length)
    (hgrounded : Grounded vm.natives) : Between vm u where
  parts := ⟨[], [], vm.natives, parts_nil, parts_nil, rfl, hnatives⟩
  frames := hframes
  grounded := hnatives ▸ hgrounded

theorem BetweenLoops.of_eq (hnatives : u.natives = vm.natives) (hframes : u.frames.length = vm.frames.length)
    (hgrounded : Grounded vm.natives) (hloop : OnLoop vm.natives) : BetweenLoops vm u where
  toBetween := .of_eq hnatives hframes hgrounded
  loop := hnatives ▸ hloop

theorem Between.push (h : Between vm u) (hpart : native.isPart = true)
    (hloop : native.onLoop = true → OnLoop u.natives) (heffect : native.onLoop = false → InEffect u.natives) :
    Between vm { u with natives := native :: u.natives } := by
  obtain ⟨popped, pushed, rest, hpopped, hpushed, hnatives, hnatives'⟩ := h.parts
  refine ⟨⟨popped, native :: pushed, rest, hpopped, hpushed.cons hpart, hnatives, ?_⟩, h.frames, hloop,
    fun _ => heffect, h.grounded⟩
  show native :: u.natives = _
  rw [hnatives', cons_append]

theorem Between.silent (h : Between vm u) : Silent vm u := by
  obtain ⟨popped, pushed, rest, hpopped, hpushed, hnatives, hnatives'⟩ := h.parts
  exact .stay popped pushed rest hpopped hpushed hnatives hnatives' h.frames

/-- A step that shows nothing, and leaves the natives in their places. -/
structure Quietly (vm vm' : Vm) : Prop where
  silent : Silent vm vm'
  placed : Placed vm'

/-- In the loop, where no effect goes on. -/
theorem BetweenLoops.quietly (h : BetweenLoops vm u) (hcontrol : ¬ u.control.Effectful) : Quietly vm u :=
  ⟨h.toBetween.silent, h.grounded, .inr h.loop, fun heffectful => absurd heffectful hcontrol⟩

theorem BetweenLoops.control_raise (h : BetweenLoops vm u) (e : VmError) :
    (u.raise e).control = .finished (.error e) := by
  obtain ⟨base, natives, hloop⟩ := h.loop
  unfold Vm.raise Vm.leave
  rw [hloop]

/-- A loop is left with an error. -/
theorem BetweenLoops.raise (h : BetweenLoops vm u) (e : VmError) : Quietly vm (u.raise e) := by
  obtain ⟨popped, pushed, rest, hpopped, hpushed, hnatives, hnatives'⟩ := h.parts
  obtain ⟨base, natives, hloop⟩ := h.loop
  have hgrounded := h.grounded
  unfold Vm.raise Vm.leave
  rw [hloop] at hgrounded hnatives' ⊢
  refine ⟨?_, hgrounded.below, .inl trivial, False.elim⟩
  -- a loop is not among the parts of a native
  match pushed with
  | [] =>
    obtain rfl : .runTo base :: natives = rest := hnatives'
    exact .fail popped base natives e hpopped hnatives rfl h.frames rfl
  | native :: pushed =>
    obtain rfl : .runTo base = native := head_eq_of_cons_eq hnatives'
    exact nomatch hpushed _ (mem_cons_self ..)

/-- **What natives do is silent.** -/
theorem walk_quietly (vm : Vm) : Walk (BetweenEffects vm) (BetweenLoops vm) (Quietly vm) where
  withStack _ h := ⟨⟨h.parts, h.frames, h.grounded⟩, h.loop⟩
  withSteps _ h := ⟨⟨h.parts, h.frames, h.grounded⟩, h.loop⟩
  join _ h := ⟨Between.silent ⟨h.parts, h.frames, h.grounded⟩, h.grounded, .inr h.loop, False.elim⟩
  resume _ h := ⟨Between.silent ⟨h.parts, h.frames, h.grounded⟩, h.grounded, .inr h.loop, False.elim⟩
  raise e h := h.raise e
  awaitOnLoop hpart hloop f args h := by
    have hpush := h.push hpart (fun _ => h.loop) fun hnot => nomatch hnot.symm.trans hloop
    exact ⟨Between.silent ⟨hpush.parts, hpush.frames, hpush.grounded⟩, hpush.grounded, .inl trivial, False.elim⟩
  crash h := by
    have hbetween : Between vm _ := h.elim BetweenEffects.toBetween BetweenLoops.toBetween
    exact ⟨.crashed rfl, hbetween.grounded, .inl trivial, False.elim⟩
  goto hcontrol h :=
    ⟨Between.silent ⟨h.parts, h.frames, h.grounded⟩, h.grounded, .inl (calm_of_effectful hcontrol), fun _ =>
      h.effect⟩
  await hpart hloop hcontrol h := by
    have hpush := h.push hpart (fun honLoop => nomatch hloop.symm.trans honLoop) fun _ => h.effect
    exact ⟨Between.silent ⟨hpush.parts, hpush.frames, hpush.grounded⟩, hpush.grounded,
      .inl (calm_of_effectful hcontrol), fun _ => h.effect.cons hpart hloop⟩
  awaitCall hpart hloop f args h := by
    have hpush := h.push hpart (fun honLoop => nomatch hloop.symm.trans honLoop) fun _ => h.effect
    exact ⟨Between.silent ⟨hpush.parts, hpush.frames, hpush.grounded⟩, hpush.grounded, .inl trivial, False.elim⟩

/-! ## The checks in front of a call -/

/-- A step, with what it shows. -/
structure Showing (vm : Vm) (shown : Option Happening) (vm' : Vm) : Prop where
  shows : Shows vm shown vm'
  placed : Placed vm'

theorem Quietly.showing (h : Quietly vm vm') : Showing vm none vm' := ⟨.silent h.silent, h.placed⟩

theorem Between.crash (h : Between vm u) : Showing vm shown (u.goto .crashed) :=
  ⟨.crashed rfl, h.grounded, .inl trivial, False.elim⟩

variable {fnId : Nat} {f : Function}

variable (h : BetweenLoops vm u)
include h

theorem BetweenLoops.charge {next : Budget → Outcome} (hnext : ∀ b, Showing vm shown (next b).vm) :
    Showing vm (whenCharged budget f shown) (charge budget fnId f u next).vm := by
  unfold whenCharged Machine.charge
  by_cases hcost : callBudgetCost f = 0
  · rw [if_pos hcost, if_pos hcost]
    exact hnext _
  · rw [if_neg hcost, if_neg hcost]
    cases budget.noteCallBudget (callBudgetCost f) with
    | error message => exact (h.raise _).showing
    | ok b => exact hnext b

theorem BetweenLoops.checked {arg : Nat → Option Value} {c : CallSite}
    {next : Outcome} (hnext : Showing vm shown next.vm) :
    Showing vm (whenChecked host f arg (fun e => some (.rejected c e)) shown)
      (checked host budget f arg u next).vm := by
  unfold whenChecked Machine.checked
  cases checkRefinements host f.name arg 0 f.refinements with
  | ok passed => exact hnext
  | error fault =>
    cases fault with
    | err e => exact ⟨.rejected c _ (h.raise e).silent ⟨_, h.control_raise e⟩, (h.raise e).placed⟩
    | panicked => exact h.crash

theorem BetweenLoops.hooked {c : CallSite} {shownOf : Value → Option Happening}
    {answered : Vm → Value → Outcome} {declined : Vm → Outcome}
    (hanswered : ∀ steps v, Showing vm (shownOf v) (answered { u with steps } v).vm)
    (hdeclined : ∀ steps, Showing vm shown (declined { u with steps }).vm) :
    Showing vm (whenHooked input (fun e => some (.rejected c e)) shownOf shown)
      (hooked input budget u answered declined).vm := by
  unfold whenHooked Machine.hooked
  cases input.hook with
  | none => exact hdeclined u.steps
  | some answer =>
    dsimp only
    cases answer.result with
    | error e =>
      have hanswer := (walk_quietly vm).withSteps answer.steps h
      exact ⟨.rejected c _ (hanswer.raise e).silent ⟨_, hanswer.control_raise e⟩, (hanswer.raise e).placed⟩
    | ok result =>
      cases result with
      | some v => exact hanswered _ v
      | none => exact hdeclined _

/-! ## Frames -/

variable {args : List Value}

/-- A frame is pushed, or there is no room for it. -/
theorem BetweenLoops.enter (hnatives : u.natives = vm.natives) {route : Route}
    {key : Option (Nat × Nat)} (c : CallSite) :
    Showing vm (whenEntered vm.frames.length f args (fun e => some (.overflowed c e)) (some (.invoked c)))
      (enter budget route fnId f args key u).vm := by
  unfold whenEntered Machine.enter
  by_cases hsize : f.frameSize < args.length
  · rw [if_pos hsize, if_pos hsize]
    exact h.crash
  · rw [if_neg hsize, if_neg hsize, ← h.frames]
    by_cases hfull : maxCallDepth ≤ u.frames.length
    · rw [if_pos hfull, if_pos hfull]
      have hclaimed : BetweenLoops vm (u.onLocals (· ++ frameSlots f args)) :=
        ⟨⟨h.parts, h.frames, h.grounded⟩, h.loop⟩
      have hraise := hclaimed.raise (.callStackOverflow maxCallDepth)
      exact ⟨.overflowed c _ hraise.silent ⟨_, hclaimed.control_raise _⟩, hraise.placed⟩
    · rw [if_neg hfull, if_neg hfull]
      refine ⟨.invoked c (hnatives ▸ h.loop) hnatives ?_ rfl, h.grounded, .inr h.loop, False.elim⟩
      show u.frames.length + 1 = _
      rw [h.frames]

omit h in
theorem leaves_yield {base : Nat} {rest : List Native} (hnatives : vm.natives = .runTo base :: rest)
    (hgrounded : Grounded vm.natives) (hsame : u.natives = vm.natives)
    (hframes : u.frames.length + 1 = vm.frames.length) (v : Value) :
    Leaves vm (u.yield v) base rest ∧ Placed (u.yield v) := by
  unfold Vm.yield Vm.leave
  rw [hsame, hnatives]
  rw [hnatives] at hgrounded
  dsimp only
  split
  · rename_i hbase
    exact ⟨.succeed v rfl hframes hbase rfl, hgrounded.below, .inl trivial, False.elim⟩
  · rename_i hbase
    refine ⟨.ret hsame hframes (Nat.lt_of_not_le hbase), ?_, .inr ?_, False.elim⟩
    · show Grounded u.natives
      rw [hsame, hnatives]
      exact hgrounded
    · exact ⟨base, rest, hsame.trans hnatives⟩

omit h in
theorem showing_collapse (c : CallSite) (h : BetweenLoops vm u) (hsame : u.natives = vm.natives) (v : Value) :
    Showing vm (some (.tailAnswered c v)) (u.collapse v) := by
  obtain ⟨base, rest, hloop⟩ := h.loop
  have hnatives := hsame.symm.trans hloop
  unfold Vm.collapse
  split
  · exact h.crash
  · rename_i frame frames hu
    have hlength := h.frames
    rw [hu] at hlength
    obtain ⟨hleaves, hplaced⟩ := leaves_yield (u := { u with frames := frames }.release frame) hnatives
      (hsame ▸ h.grounded) hsame hlength v
    exact ⟨.tailAnswered c v base rest hnatives hleaves, hplaced⟩

variable (hsame : u.natives = vm.natives)
include hsame

theorem showing_ret : Showing vm (returnHappening u) u.ret := by
  obtain ⟨base, rest, hloop⟩ := h.loop
  have hnatives := hsame.symm.trans hloop
  unfold returnHappening Vm.ret
  cases hstack : u.memory.stack with
  | nil => exact (h.raise _).showing
  | cons v below =>
    cases hu : u.frames with
    | nil => exact h.crash
    | cons frame frames =>
      have hlength := h.frames
      rw [hu] at hlength
      obtain ⟨hleaves, hplaced⟩ := leaves_yield
        (u := ({ u with frames := frames }.release frame).memoize frame.memoKey v) hnatives (hsame ▸ h.grounded)
        (by rw [Vm.natives_memoize]; exact hsame) (by rw [Vm.frames_memoize]; exact hlength) v
      exact ⟨.returned v base rest hnatives hleaves, hplaced⟩

omit h hsame in
theorem showing_reuse (c : CallSite) (h : BetweenLoops vm u) (hsame : u.natives = vm.natives) {below : List Value} :
    Showing vm (if f.frameSize < args.length then none else some (.tailCalled c))
      (u.reuse budget fnId f args below).vm := by
  unfold Vm.reuse
  cases hu : u.frames with
  | nil => exact h.crash
  | cons frame frames =>
    dsimp only
    by_cases hsize : f.frameSize < args.length
    · rw [if_pos hsize, if_pos hsize]
      exact h.crash
    · rw [if_neg hsize, if_neg hsize]
      refine ⟨.tailCalled c (hsame ▸ h.loop) hsame ?_ rfl, h.grounded, .inr h.loop, False.elim⟩
      have hlength := h.frames
      rw [hu] at hlength
      exact hlength

/-! ## Calls -/

theorem BetweenLoops.callMissed {below : List Value} {key : Option (Nat × Nat)} (c : CallSite) : Showing vm
      (whenHooked input (fun e => some (.rejected c e)) (fun v => some (.answered c v))
        (whenEntered vm.frames.length f args (fun e => some (.overflowed c e)) (some (.invoked c))))
      (u.callMissed input budget fnId f args below key).vm := by
  refine h.hooked (fun steps v => ?_) fun steps => ?_
  · refine ⟨.answered c v ?_ ?_ rfl, ?_, .inr ?_, False.elim⟩
    all_goals
      cases key <;> simp only
    · exact hsame
    · exact hsame
    · exact h.frames
    · exact h.frames
    · exact h.grounded
    · exact h.grounded
    · exact h.loop
    · exact h.loop
  · apply BetweenLoops.enter
    · exact ⟨⟨h.parts, h.frames, h.grounded⟩, h.loop⟩
    · exact hsame

theorem showing_call (nodeId : String) (fnId arity : Nat) :
    Showing vm (callHappening program host input budget u nodeId fnId arity)
      (u.call program host input budget fnId arity).vm := by
  unfold callHappening Vm.call
  cases program.functions[fnId]? with
  | none => exact h.crash
  | some f =>
    dsimp only
    by_cases harity : u.memory.stack.length < arity
    · rw [if_pos harity, if_pos harity]
      exact h.crash
    · rw [if_neg harity, if_neg harity, h.frames]
      refine h.charge fun b => h.checked ?_
      unfold Vm.callChecked
      cases u.memoKey host fnId f (u.memory.stack.take arity).reverse with
      | none => exact h.crash
      | some key =>
        cases key with
        | none => exact h.callMissed hsame _
        | some key =>
          dsimp only
          cases u.pureMemo.lookup key with
          | some cached => exact ⟨.answered _ cached hsame h.frames rfl, h.grounded, .inr h.loop, False.elim⟩
          | none =>
            apply BetweenLoops.callMissed (u := u.countCall fnId false)
            · exact ⟨⟨h.parts, h.frames, h.grounded⟩, h.loop⟩
            · exact hsame

theorem showing_tailCall (nodeId : String)
    (fnId arity : Nat) : Showing vm (tailCallHappening program host input budget u nodeId fnId arity)
      (u.tailCall program host input budget fnId arity).vm := by
  unfold tailCallHappening Vm.tailCall
  cases program.functions[fnId]? with
  | none => exact h.crash
  | some f =>
    dsimp only
    by_cases harity : u.memory.stack.length < arity
    · rw [if_pos harity, if_pos harity]
      exact h.crash
    · rw [if_neg harity, if_neg harity]
      refine h.charge fun b => h.checked (h.hooked (fun steps v => ?_) fun steps => ?_)
      · exact showing_collapse _ ((walk_quietly vm).withSteps steps h) hsame v
      · exact showing_reuse _ ((walk_quietly vm).withSteps steps h) hsame

theorem showing_callClosure (nodeId : String) (arity : Nat) :
    Showing vm (callClosureHappening program budget u nodeId arity) (u.callClosure program budget arity).vm := by
  unfold callClosureHappening Vm.callClosure
  cases hcallee : u.memory.stack[arity]? with
  | none => exact h.crash
  | some callee =>
    have hplaceholder := (walk_quietly vm).withStack (u.memory.stack.set arity .unit) h
    cases callee with
    | closure fnId bodyHash captures =>
      dsimp only
      cases program.functions[fnId]? with
      | none => exact hplaceholder.crash
      | some f =>
        -- the placeholder lies below the arguments
        have htake : (u.memory.stack.set arity .unit).take arity = u.memory.stack.take arity :=
          take_set_of_le (Nat.le_refl _)
        show Showing vm _ (charge budget fnId f (u.withStack (u.memory.stack.set arity .unit)) _).vm
        rw [h.frames]
        refine hplaceholder.charge fun b => ?_
        show Showing vm _ (Machine.enter b .callClosure fnId f
          (captures ++ ((u.memory.stack.set arity .unit).take arity).reverse) none _).vm
        rw [htake]
        apply BetweenLoops.enter
        · exact (walk_quietly vm).withStack _ hplaceholder
        · exact hsame
    | _ => exact (hplaceholder.raise _).showing

/-! ## Effects -/

theorem showing_effectCall (nodeId : String) (kindIdx opIdx arity : Nat)
    (ho : u.effectCall program host input budget kindIdx opIdx arity = some o) :
    Showing vm (effectHappening program u nodeId kindIdx opIdx arity) o.vm := by
  unfold effectHappening
  unfold Vm.effectCall at ho
  by_cases harity : u.memory.stack.length < arity
  · rw [if_pos harity] at ho ⊢
    exact some.inj ho ▸ (((walk_quietly vm).withStack [] h).raise _).showing
  · rw [if_neg harity] at ho ⊢
    have hpopped := (walk_quietly vm).withStack (u.memory.stack.drop arity) h
    -- with the effect on top the rest of the arm is a walk of its own
    have heffect : BetweenEffects { vm with natives := .effectCall :: vm.natives }
        { u.withStack (u.memory.stack.drop arity) with natives := .effectCall :: u.natives } := by
      refine ⟨.of_eq ?_ h.frames ⟨fun _ => hsame ▸ h.loop, fun hpart => (nomatch hpart), hsame ▸ h.grounded⟩,
        trivial⟩
      show Native.effectCall :: u.natives = _
      rw [hsame]
    have hshows : ∀ {c vm'}, Quietly { vm with natives := .effectCall :: vm.natives } vm' →
        Showing vm (some (.effectStarted c)) vm' := fun hquiet => ⟨.effectStarted _ hquiet.silent, hquiet.placed⟩
    have hwalk := walk_quietly { vm with natives := .effectCall :: vm.natives }
    dsimp only at ho ⊢
    split at ho
    · rename_i args kind op hargs hkind hop
      simp only [hargs, hkind, hop]
      split at ho
      · exact some.inj ho ▸ hshows (hwalk.goto trivial heffect)
      · exact some.inj ho ▸ hshows (hwalk.runParserOp heffect _)
      · exact hshows (hwalk.runConcOp heffect ho)
      · exact some.inj ho ▸ hshows (hwalk.goto trivial heffect)
    all_goals
      obtain rfl := some.inj ho
    · exact hpopped.crash
    · exact hpopped.crash
    · exact hpopped.crash
    · rename_i kind other hnot hargs hkind hop
      rw [hkind, hop]
      split
      · rename_i _ _ op hargs' hkind' hop'
        exact (hnot _ (some.inj hop')).elim
      · exact (hpopped.raise _).showing
    · rename_i args kind hargs hkind hnot _ _
      rw [hkind]
      split
      · rename_i _ other op _ hkind' hop
        exact (hnot other op hop (some.inj hkind')).elim
      · exact (hpopped.raise _).showing

omit hsame

/-! ## Invocations -/

omit h in
/-- The call has come back at once. -/
theorem showing_back (hgrounded : Grounded vm.natives) (hnatives : vm'.natives = vm.natives)
    (hframes : vm'.frames.length = vm.frames.length) (hcontrol : ∃ result, vm'.control = .finished result) :
    Showing vm none vm' := by
  obtain ⟨result, hcontrol⟩ := hcontrol
  refine ⟨.silent (.stay [] [] vm.natives parts_nil parts_nil rfl hnatives hframes), hnatives ▸ hgrounded, ?_, ?_⟩
  · rw [hcontrol]
    exact .inl trivial
  · rw [hcontrol]
    exact False.elim

omit h in
theorem showing_enter_invoke (hgrounded : Grounded vm.natives) (steps : Nat) {route : Route} :
    Showing vm (whenEntered vm.frames.length f args (fun _ => none) (some .entered))
      (enter budget route fnId f args none
        { vm with natives := .runTo vm.frames.length :: vm.natives, steps }).vm := by
  unfold whenEntered Machine.enter
  by_cases hsize : f.frameSize < args.length
  · rw [if_pos hsize, if_pos hsize]
    exact ⟨.crashed rfl, hgrounded.loop _, .inl trivial, False.elim⟩
  · rw [if_neg hsize, if_neg hsize]
    by_cases hfull : maxCallDepth ≤ vm.frames.length
    · rw [if_pos hfull, if_pos hfull]
      exact showing_back hgrounded rfl rfl ⟨_, rfl⟩
    · rw [if_neg hfull, if_neg hfull]
      exact ⟨.entered rfl rfl, hgrounded.loop _, .inr ⟨_, _, rfl⟩, False.elim⟩

omit h in
theorem showing_invoke (hgrounded : Grounded vm.natives) (fnId : Nat) (args : List Value) :
    Showing vm (invokeHappening program host input vm fnId args)
      (vm.invoke program host input budget fnId args).vm := by
  unfold invokeHappening Vm.invoke
  cases program.functions[fnId]? with
  | none => exact ⟨.crashed rfl, hgrounded, .inl trivial, False.elim⟩
  | some f =>
    dsimp only
    by_cases harity : args.length ≠ f.arity
    · rw [if_pos harity, if_pos harity]
      exact showing_back hgrounded rfl rfl ⟨_, rfl⟩
    · rw [if_neg harity, if_neg harity]
      unfold whenChecked checked
      cases checkRefinements host f.name (fun i => some (args.getD i .unit)) 0 f.refinements with
      | error fault =>
        cases fault with
        | err e => exact showing_back hgrounded rfl rfl ⟨_, rfl⟩
        | panicked => exact ⟨.crashed rfl, hgrounded.loop _, .inl trivial, False.elim⟩
      | ok passed =>
        unfold whenHooked hooked
        cases input.hook with
        | none => exact showing_enter_invoke hgrounded vm.steps
        | some answer =>
          dsimp only
          cases answer.result with
          | error e => exact showing_back hgrounded rfl rfl ⟨_, rfl⟩
          | ok result =>
            cases result with
            | some v => exact showing_back hgrounded rfl rfl ⟨_, rfl⟩
            | none => exact showing_enter_invoke hgrounded answer.steps

/-! ## Instructions -/

theorem showing_execute (hcontrol : u.control = .run) {frame : Frame}
    {frames : List Frame} (hu : u.frames = frame :: frames) (exec : Exec Unit) : Showing vm none (u.execute frame frames exec) := by
  have hrefocus : ∀ s, BetweenLoops vm (u.refocus frame frames s) := fun s => by
    refine ⟨⟨h.parts, ?_, h.grounded⟩, h.loop⟩
    rw [← h.frames, hu]
    rfl
  unfold Vm.execute
  split
  · refine ((hrefocus _).quietly ?_).showing
    show ¬ u.control.Effectful
    rw [hcontrol]
    exact id
  · exact ((hrefocus _).raise _).showing
  · exact (hrefocus _).crash

theorem showing_perform (hsame : u.natives = vm.natives) (hcontrol : u.control = .run)
    {frame : Frame} {frames : List Frame} {op : Op} (hu : u.frames = frame :: frames)
    (ho : u.perform program host input budget frame frames op = some o) :
    Showing vm (performHappening program host nodeIds input budget u frame frames op) o.vm := by
  have hadvanced : BetweenLoops vm { u with frames := { frame with pc := frame.pc + 1 } :: frames } := by
    refine ⟨⟨h.parts, ?_, h.grounded⟩, h.loop⟩
    rw [← h.frames, hu]
    rfl
  have hwalk := walk_quietly vm
  unfold Vm.perform at ho
  split at ho
  · exact some.inj ho ▸ showing_call hadvanced hsame _ _ _
  · exact some.inj ho ▸ showing_tailCall hadvanced hsame _ _ _
  · exact some.inj ho ▸ showing_callClosure hadvanced hsame _ _
  · exact some.inj ho ▸ showing_ret hadvanced hsame
  · exact some.inj ho ▸ (hwalk.withList hadvanced fun _ _ _ hu => hwalk.mapNext hu _ _ _).showing
  · exact some.inj ho ▸ (hwalk.withList hadvanced fun _ _ _ hu => hwalk.filterNext hu _ _ _).showing
  · exact some.inj ho ▸ (hwalk.withList hadvanced fun _ _ _ hu => hwalk.sortNext hu _ _ _).showing
  · exact some.inj ho ▸ (hwalk.listFold hadvanced).showing
  · exact some.inj ho ▸ (hwalk.parallelMap hadvanced).showing
  · exact showing_effectCall hadvanced hsame _ _ _ _ ho
  · rename_i hcall htail hclosure hreturn _ _ _ _ _ heffect
    obtain ⟨exec, -, rfl⟩ := map_eq_some_iff.mp ho
    have hnone : performHappening program host nodeIds input budget u frame frames op = none := by
      unfold performHappening
      split
      · exact (hcall _ _ rfl).elim
      · exact (htail _ _ rfl).elim
      · exact (hclosure _ rfl).elim
      · exact (hreturn rfl).elim
      · exact (heffect _ _ _ rfl).elim
      · rfl
    rw [hnone]
    exact showing_execute h hcontrol hu exec

omit h

theorem showing_dispatch (hgrounded : Grounded vm.natives) (hloop : OnLoop vm.natives)
    (hcontrol : vm.control = .run) (ho : vm.dispatch program host input budget = some o) :
    Showing vm (dispatchHappening program host nodeIds input budget vm) o.vm := by
  have h : ∀ steps, BetweenLoops vm { vm with steps } := fun _ => .of_eq rfl rfl hgrounded hloop
  unfold dispatchHappening
  unfold Vm.dispatch at ho
  by_cases hlimit : vm.stepLimit < vm.steps
  · rw [if_pos hlimit] at ho ⊢
    exact some.inj ho ▸ ((h vm.steps).raise _).showing
  · rw [if_neg hlimit] at ho ⊢
    dsimp only at ho ⊢
    cases hfetch : ({ vm with steps := vm.steps + 1 } : Vm).fetch program with
    | none =>
      rw [hfetch] at ho
      exact some.inj ho ▸ (h _).crash
    | some fetched =>
      obtain ⟨frame, frames, op⟩ := fetched
      rw [hfetch] at ho
      exact showing_perform (h (vm.steps + 1)) rfl hcontrol (fetch_frames hfetch) ho

/-! ## One step -/

/-- Past a part of a native. -/
theorem between_of_cons (hnatives : vm.natives = native :: natives)
    (hpart : native.isPart = true) (hgrounded : Grounded vm.natives) : Between vm { vm with natives } where
  parts := ⟨[native], [], natives, parts_nil.cons hpart, parts_nil, hnatives, rfl⟩
  frames := rfl
  grounded := (hnatives ▸ hgrounded : Grounded (native :: natives)).below

/-- What waits for a call is a part of a native, or the machine is gone. -/
theorem afterCall_of_not_part (hpart : native.isPart = false) (result : Except VmError Value) :
    u.afterCall program host native result = u.goto .crashed := by
  unfold Vm.afterCall
  split
  all_goals first
    | cases hpart
    | rfl

theorem afterParse_of_not_part (hpart : native.isPart = false)
    (result : Except (Nat × String) (Value × Nat)) : u.afterParse host native result = u.goto .crashed := by
  unfold Vm.afterParse
  split
  all_goals first
    | cases hpart
    | rfl

variable (nodeIds) in
/-- **What one step does to the stacks of a machine.** -/
theorem step_shows (hplaced : Placed vm) (ho : vm.step program host input budget = some o) :
    Showing vm (happening program host nodeIds input budget vm) o.vm := by
  have hgrounded := hplaced.grounded
  have hlooping := hplaced.looping
  have heffectful := hplaced.effectful
  have hwalk := walk_quietly vm
  have h : Between vm vm := .of_eq rfl rfl hgrounded
  unfold happening
  unfold Vm.step at ho
  cases hcontrol : vm.control with
  | idle | crashed =>
    rw [hcontrol] at ho
    exact nomatch ho
  | run =>
    rw [hcontrol] at ho hlooping
    exact showing_dispatch hgrounded (hlooping.resolve_left id) hcontrol ho
  | invokeClosure callee args =>
    rw [hcontrol] at ho
    cases callee with
    | closure fnId bodyHash captures => exact some.inj ho ▸ showing_invoke hgrounded _ _
    | _ =>
      obtain rfl := some.inj ho
      exact showing_back hgrounded rfl rfl ⟨_, rfl⟩
  | invoke fnId args =>
    rw [hcontrol] at ho
    exact some.inj ho ▸ showing_invoke hgrounded _ _
  | parse bytes node pos =>
    rw [hcontrol] at ho heffectful
    exact some.inj ho ▸ (hwalk.parse ⟨h, heffectful trivial⟩ _ _ _).showing
  | finished result =>
    rw [hcontrol] at ho
    dsimp only at ho ⊢
    split at ho
    · exact nomatch ho
    · exact nomatch ho
    · rename_i native natives _ hnatives
      obtain rfl := some.inj ho
      have hbelow := hnatives ▸ hgrounded
      cases hpart : native.isPart with
      | true =>
        have hpast := between_of_cons hnatives hpart hgrounded
        exact (hwalk.afterCall (fun honLoop => ⟨hpast, hbelow.1 honLoop⟩)
          (fun hnot => ⟨hpast, hbelow.2.1 hpart hnot⟩) _).showing
      | false =>
        rw [afterCall_of_not_part hpart]
        exact ⟨.crashed rfl, hbelow.below, .inl trivial, False.elim⟩
  | parsed result =>
    rw [hcontrol] at ho heffectful
    dsimp only at ho ⊢
    split at ho
    · exact some.inj ho ▸ h.crash
    · rename_i native natives hnatives
      obtain rfl := some.inj ho
      have hbelow := hnatives ▸ hgrounded
      cases hpart : native.isPart with
      | true =>
        have heffect := (hnatives ▸ heffectful trivial : InEffect (native :: natives)).of_part hpart
        exact (hwalk.afterParse ⟨between_of_cons hnatives hpart hgrounded, heffect⟩ _ _).showing
      | false =>
        rw [afterParse_of_not_part hpart]
        exact ⟨.crashed rfl, hbelow.below, .inl trivial, False.elim⟩
  | replied result =>
    rw [hcontrol] at ho
    dsimp only at ho ⊢
    split at ho
    · rename_i natives hnatives
      obtain rfl := some.inj ho
      have hbelow := hnatives ▸ hgrounded
      have hquiet : Quietly { vm with natives } (({ vm with natives } : Vm).afterEffect input result) :=
        (walk_quietly _).afterEffect (.of_eq rfl rfl hbelow.below (hbelow.1 rfl)) result
      simp only [hnatives]
      exact ⟨.effectEnded result natives hnatives hquiet.silent, hquiet.placed⟩
    · exact nomatch ho
    · exact some.inj ho ▸ h.crash
  | awaitTurn op msg =>
    rw [hcontrol] at ho heffectful
    obtain ⟨turn, -, rfl⟩ := map_eq_some_iff.mp ho
    have hawait : Quietly vm (vm.await (.runActorTurn op) (.invokeClosure turn.1 [turn.2, msg])) :=
      hwalk.awaitCall rfl rfl _ _ ⟨h, heffectful trivial⟩
    exact hawait.showing
  | join items =>
    rw [hcontrol] at ho hlooping
    obtain ⟨answers, -, rfl⟩ := map_eq_some_iff.mp ho
    exact (hwalk.collect ⟨h, hlooping.resolve_left id⟩ _ _).showing

end Arms

end LexLang.Trace
