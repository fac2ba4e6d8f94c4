/-
# LexLang.Trace.Leaps — a successful run, from effect to effect

A run that succeeds has no step that fails: what is left of it with an error stays so (`Doomed`). Where no effect
calls back into the program such a run is made of leaps (`Leap`): the steps outside of effects, and whole effects,
which leave nothing but their results.
-/
import LexLang.Trace.Effects
import LexLang.Trace.Runs
import LexLang.Trace.TraceIsRun

namespace LexLang.Trace

open LexLang.Machine
open List Option Relation.ReflTransGen

section Leaps

variable {shown : Shown} {host : Host} {input : Input} {budget : Budget} {world : Surroundings}
  {session session' : Session} {vm vm' u : Vm} {natives : List Native} {happening : Option Happening} {o : Outcome}

/-! ## Steps that do not fail -/

variable (shown host) in
/-- What a step makes of a session, when no error leaves a loop. -/
def Session.moved (session : Session) (happening : Option Happening) (vm : Vm) : Session :=
  let made := accounted shown host session happening
  { made with runner := { made.runner with vm, kinds := Session.kindsAfter session.runner.kinds happening } }

theorem after_eq_moved (halive : ∀ e, o.vm.control ≠ .finished (.error e)) : session.after shown host input budget o =
      session.moved shown host (session.happening host input budget) o.vm := by
  rw [after_eq rfl, escape_of_control halive]
  rfl

/-! ## Machines without an effect -/

/-- No effect is under way. -/
def Effectfree (natives : List Native) : Prop := .effectCall ∉ natives

theorem effectfree_of_parts {parts : List Native} (hparts : Parts parts) (h : Effectfree natives) :
    Effectfree (parts ++ natives) := by
  intro hmem
  rcases mem_append.mp hmem with hmem | hmem
  · exact nomatch hparts _ hmem
  · exact h hmem

theorem Effectfree.of_append {before : List Native} (h : Effectfree (before ++ natives)) : Effectfree natives :=
  fun hmem => h (mem_append_right _ hmem)

theorem Effectfree.cons {native : Native} (h : Effectfree natives) (hne : native ≠ .effectCall) :
    Effectfree (native :: natives) := by
  intro hmem
  rcases mem_cons.mp hmem with heq | hmem
  · exact hne heq.symm
  · exact h hmem

theorem InEffect.mem (h : InEffect natives) : Native.effectCall ∈ natives := by
  induction natives with
  | nil => exact h.elim
  | cons native natives ih =>
    cases native with
    | effectCall => exact mem_cons_self ..
    | _ => exact mem_cons_of_mem _ (ih h.2.2)

theorem Silent.effectfree (h : Silent vm vm') (hfree : Effectfree vm.natives) :
    vm'.control = .crashed ∨ Effectfree vm'.natives := by
  cases h with
  | crashed hcontrol => exact .inl hcontrol
  | stay popped pushed rest hpopped hpushed hnatives hnatives' hframes =>
    right
    rw [hnatives] at hfree
    rw [hnatives']
    exact effectfree_of_parts hpushed hfree.of_append
  | fail popped base rest e hpopped hnatives hnatives' hframes hcontrol =>
    right
    rw [hnatives] at hfree
    rw [hnatives']
    exact fun hmem => hfree.of_append (mem_cons_of_mem _ hmem)

theorem Leaves.effectfree {base : Nat} {rest : List Native} (h : Leaves vm vm' base rest)
    (hnatives : vm.natives = .runTo base :: rest) (hfree : Effectfree vm.natives) : Effectfree vm'.natives := by
  cases h with
  | ret hnatives' hframes hbase => exact hnatives' ▸ hfree
  | succeed v hnatives' hframes hbase hcontrol =>
    rw [hnatives] at hfree
    rw [hnatives']
    exact fun hmem => hfree (mem_cons_of_mem _ hmem)

/-- Only an `EffectCall` puts an effect among the natives. -/
theorem Shows.effectfree (h : Shows vm happening vm') (hfree : Effectfree vm.natives)
    (hnone : ∀ c, happening ≠ some (.effectStarted c)) : vm'.control = .crashed ∨ Effectfree vm'.natives := by
  cases h with
  | crashed hcontrol => exact .inl hcontrol
  | silent hsilent | rejected _ _ hsilent | overflowed _ _ hsilent => exact hsilent.effectfree hfree
  | entered hnatives' hframes => exact .inr (hnatives' ▸ hfree.cons nofun)
  | invoked _ _ hnatives' | answered _ _ hnatives' | tailCalled _ _ hnatives' => exact .inr (hnatives' ▸ hfree)
  | tailAnswered _ _ _ _ hnatives hleaves | returned _ _ _ hnatives hleaves =>
    exact .inr (hleaves.effectfree hnatives hfree)
  | effectStarted c hsilent => exact (hnone c rfl).elim
  | effectEnded result rest hnatives hsilent =>
    refine hsilent.effectfree fun hmem => hfree ?_
    rw [hnatives]
    exact mem_cons_of_mem _ hmem

/-! ## Failures are final -/

/-- An error has left a loop, and no effect is left to go on; or a thread is gone. -/
inductive Doomed (vm : Vm) : Prop
  | crashed (hcontrol : vm.control = .crashed)
  | failed (e : VmError) (hcontrol : vm.control = .finished (.error e)) (hgrounded : Grounded vm.natives)
      (hfree : Effectfree vm.natives)

theorem doomed_raise (hgrounded : Grounded u.natives) (hfree : Effectfree u.natives) (e : VmError) :
    Doomed (u.raise e) := by
  unfold Vm.raise Vm.leave
  split
  · rename_i base natives hnatives
    rw [hnatives] at hgrounded hfree
    exact .failed e rfl hgrounded.below fun hmem => hfree (mem_cons_of_mem _ hmem)
  · exact .crashed rfl

/-- **What has failed fails on.** -/
theorem Doomed.step (h : Doomed vm) {program : Program} (ho : vm.step program host input budget = some o) :
    Doomed o.vm := by
  cases h with
  | crashed hcontrol => exact nomatch (step_eq_none hcontrol).symm.trans ho
  | failed e hcontrol hgrounded hfree =>
    unfold Vm.step at ho
    rw [hcontrol] at ho
    dsimp only at ho
    split at ho
    · exact nomatch ho
    · exact nomatch ho
    · rename_i native natives _ hnatives
      obtain rfl := some.inj ho
      rw [hnatives] at hgrounded hfree
      have hbelow : Effectfree natives := fun hmem => hfree (mem_cons_of_mem _ hmem)
      -- the other parts would be those of an effect
      have hloop : native.isPart = true → native.onLoop = true := by
        intro hpart
        cases hloop : native.onLoop with
        | true => rfl
        | false => exact (hbelow (hgrounded.2.1 hpart hloop).mem).elim
      cases native with
      | listMap | listFilter | listFold | sortByKey => exact doomed_raise hgrounded.below hbelow e
      | runTo | effectCall => exact .crashed rfl
      | _ => exact nomatch hloop rfl

variable {v : Value}

theorem Doomed.not_returned (h : Doomed session.runner.vm) : ¬ session.Returned v := by
  intro hreturned
  cases h with
  | crashed hcontrol => exact nomatch hcontrol.symm.trans hreturned.control
  | failed e hcontrol hgrounded hfree => exact nomatch hcontrol.symm.trans hreturned.control

theorem vm_after : (session.after shown host input budget o).runner.vm = o.vm := by
  rw [after_eq rfl]

/-- No run from there succeeds. -/
theorem not_returned_of_doomed {final : Session}
    (hreach : Relation.ReflTransGen (Session.Turns shown host world) session final)
    (hdoomed : Doomed session.runner.vm) : ¬ final.Returned v := by
  induction hreach using head_induction_on with
  | refl => exact hdoomed.not_returned
  | head hturn hreach ih =>
    obtain ⟨o, ho, rfl⟩ := map_eq_some_iff.mp hturn
    apply ih
    rw [vm_after]
    exact hdoomed.step ho

/-! ## The stacks of a run that succeeds -/

/-- The loops are nested below the frames, and the outermost one starts at the bottom. -/
structure Level (natives : List Native) (depth : Nat) : Prop where
  bounded : (depth :: bases natives).Pairwise (· > ·)
  bottom : (depth :: bases natives).getLast? = some 0

section Level

variable {depth base : Nat} {rest : List Native}

theorem Level.of_bases (h : Level natives depth) {natives' : List Native} (hbases : bases natives' = bases natives) :
    Level natives' depth := ⟨hbases ▸ h.bounded, hbases ▸ h.bottom⟩

theorem Level.enter (h : Level natives depth) : Level (.runTo depth :: natives) (depth + 1) where
  bounded := by
    refine pairwise_cons.mpr ⟨fun base hbase => ?_, h.bounded⟩
    rcases mem_cons.mp hbase with rfl | hbase
    · omega
    · have hlt := (pairwise_cons.mp h.bounded).1 base hbase
      omega
  bottom := (getLast?_cons_cons).trans h.bottom

/-- A frame more, in a loop. -/
theorem Level.succ (h : Level natives depth) (hloop : OnLoop natives) : Level natives (depth + 1) where
  bounded := bounded_succ h.bounded
  bottom := by
    obtain ⟨base, rest, rfl⟩ := hloop
    exact (getLast?_cons_cons).trans ((getLast?_cons_cons).symm.trans h.bottom)

theorem Level.leaves (h : Level vm.natives vm.frames.length) (hnatives : vm.natives = .runTo base :: rest)
    (hleaves : Leaves vm vm' base rest) : Level vm'.natives vm'.frames.length := by
  obtain ⟨hbounded, hbottom⟩ := h
  rw [hnatives] at hbounded hbottom
  have hbelow := (pairwise_cons.mp hbounded).2
  have hdepth : base < vm.frames.length := (pairwise_cons.mp hbounded).1 base (mem_cons_self ..)
  have hrest : (base :: bases rest).getLast? = some 0 := (getLast?_cons_cons).symm.trans hbottom
  cases hleaves with
  | ret hnatives' hframes hbase =>
    rw [hnatives', hnatives]
    refine ⟨pairwise_cons.mpr ⟨fun b hb => ?_, hbelow⟩, (getLast?_cons_cons).trans hrest⟩
    rcases mem_cons.mp hb with rfl | hb
    · exact hbase
    · have hlt := (pairwise_cons.mp hbelow).1 b hb
      omega
  | succeed v hnatives' hframes hbase hcontrol =>
    have heq : vm'.frames.length = base := by omega
    rw [hnatives', heq]
    exact ⟨hbelow, hrest⟩

end Level

/-- **A run that may still succeed**, outside of an effect. -/
structure Sound (session : Session) : Prop where
  placed : Placed session.runner.vm
  effectfree : Effectfree session.runner.vm.natives
  level : Level session.runner.vm.natives session.runner.vm.frames.length
  length : session.runner.kinds.length = session.runner.vm.frames.length
  path : session.recorder.nodes.path.length ≤ session.runner.kinds.count .call

/-- What a step tells the recorder. -/
def toldBy (kinds : List FrameKind) : Option Happening → List TracerCall
  | some happening => happening.tracerCalls (kinds.headD .entry)
  | none => []

theorem recorder_moved : (session.moved shown host happening vm).recorder =
      session.recorder.tellAll shown (toldBy session.runner.kinds happening) := by
  cases happening with
  | none => rfl
  | some h =>
    cases h with
    | effectEnded result => cases result <;> rfl
    | _ => rfl

/-- How many nodes are open after what the recorder is told. -/
def openAfter (opened : Nat) : TracerCall → Nat
  | .enter_call .. | .enter_effect .. => opened + 1
  | .exit_ok _ | .exit_err _ | .exit_call_tail => opened - 1

theorem length_path_tellAll (recorder : RecorderState) (calls : List TracerCall) :
    (recorder.tellAll shown calls).nodes.path.length = calls.foldl openAfter recorder.nodes.path.length := by
  induction calls generalizing recorder with
  | nil => rfl
  | cons call calls ih =>
    show (RecorderState.tellAll shown (recorder.tell shown call) calls).nodes.path.length = _
    rw [ih, foldl_cons]
    congr 1
    cases call with
    | enter_call | enter_effect => rfl
    | exit_ok | exit_err | exit_call_tail => exact OpenForest.length_path_exit _ _

variable {kinds : List FrameKind}

/-- The open nodes are those of calls, outside of effects. -/
theorem openAfter_le {opened : Nat} {h : Happening} (hopened : opened ≤ kinds.count .call)
    (hnot : ∀ c, h ≠ .effectStarted c) (hrejects : ∀ c e, h ≠ .overflowed c e) :
    (h.tracerCalls (kinds.headD .entry)).foldl openAfter opened ≤
      (Session.kindsAfter kinds (some h)).count .call := by
  have htail : opened - 1 ≤ kinds.tail.count .call := by
    cases kinds with
    | nil =>
      simp only [count_nil] at hopened
      omega
    | cons kind kinds =>
      have hcount := count_cons (a := FrameKind.call) (b := kind) (l := kinds)
      simp only [tail_cons]
      split at hcount <;> omega
  cases h with
  | entered =>
    show opened ≤ (FrameKind.entry :: kinds).count .call
    rw [count_cons_of_ne (by decide)]
    exact hopened
  | invoked c =>
    show opened + 1 ≤ (FrameKind.call :: kinds).count .call
    rw [count_cons_self]
    omega
  | rejected c e => exact hopened
  | overflowed c e => exact (hrejects c e rfl).elim
  | answered c v =>
    show opened + 1 - 1 ≤ kinds.count .call
    omega
  | tailCalled c =>
    show opened - 1 + 1 ≤ (FrameKind.call :: kinds.tail).count .call
    rw [count_cons_self]
    omega
  | tailAnswered c v =>
    show opened - 1 + 1 - 1 ≤ kinds.tail.count .call
    omega
  | returned v =>
    show List.foldl openAfter opened (Happening.tracerCalls (kinds.headD .entry) (.returned v)) ≤
      kinds.tail.count .call
    cases kinds with
    | nil => exact hopened
    | cons kind kinds =>
      cases kind with
      | entry =>
        rw [count_cons_of_ne (by decide)] at hopened
        exact hopened
      | call => exact htail
  | effectStarted c => exact (hnot c rfl).elim
  | effectEnded result =>
    cases result with
    | ok v =>
      show opened - 1 ≤ kinds.count .call
      omega
    | error e =>
      show opened - 1 ≤ kinds.count .call
      omega

theorem length_kindsAfter (h : Shows vm happening vm') (halive : Alive vm')
    (hlevel : Level vm.natives vm.frames.length) (hlength : kinds.length = vm.frames.length) :
    (Session.kindsAfter kinds happening).length = vm'.frames.length := by
  have hsilent : ∀ {u : Vm}, u.frames = vm.frames → Silent u vm' → kinds.length = vm'.frames.length := by
    intro u hu hsilent
    cases hsilent with
    | crashed hcontrol => exact (halive.crashed hcontrol).elim
    | stay popped pushed rest hpopped hpushed hnatives hnatives' hframes => rw [hframes, hu, hlength]
    | fail popped base rest e hpopped hnatives hnatives' hframes hcontrol => rw [hframes, hu, hlength]
  have hleaves : ∀ {base : Nat} {rest : List Native}, Leaves vm vm' base rest →
      kinds.tail.length = vm'.frames.length := by
    intro base rest hleaves
    rw [length_tail, hlength]
    cases hleaves with
    | ret hnatives' hframes hbase => omega
    | succeed v hnatives' hframes hbase hcontrol => omega
  cases h with
  | crashed hcontrol => exact (halive.crashed hcontrol).elim
  | silent h => exact hsilent rfl h
  | entered hnatives' hframes =>
    show kinds.length + 1 = _
    omega
  | invoked c hloop hnatives' hframes hcontrol =>
    show kinds.length + 1 = _
    omega
  | rejected c e h hcontrol => exact hsilent rfl h
  | overflowed c e h hcontrol => exact hsilent rfl h
  | answered c v hnatives' hframes hcontrol => exact hlength.trans hframes.symm
  | tailCalled c hloop hnatives' hframes hcontrol =>
    show kinds.tail.length + 1 = _
    obtain ⟨base, rest, hnatives⟩ := hloop
    have hbounded := hlevel.bounded
    rw [hnatives] at hbounded
    have hbase : base < vm.frames.length := (pairwise_cons.mp hbounded).1 base (mem_cons_self ..)
    rw [length_tail]
    omega
  | tailAnswered c v base rest hnatives h => exact hleaves h
  | returned v base rest hnatives h => exact hleaves h
  | effectStarted c h => exact hsilent (u := { vm with natives := .effectCall :: vm.natives }) rfl h
  | effectEnded result rest hnatives h => exact hsilent (u := { vm with natives := rest }) rfl h

theorem Silent.level (h : Silent vm vm') (halive : Alive vm') (hlevel : Level vm.natives vm.frames.length) :
    Level vm'.natives vm'.frames.length := by
  cases h with
  | crashed hcontrol => exact (halive.crashed hcontrol).elim
  | stay popped pushed rest hpopped hpushed hnatives hnatives' hframes =>
    rw [hframes]
    apply hlevel.of_bases
    rw [hnatives, hnatives', bases_append, bases_append, hpopped.bases_eq, hpushed.bases_eq]
  | fail popped base rest e hpopped hnatives hnatives' hframes hcontrol => exact (halive.failed e hcontrol).elim

/-- **A step outside of an effect that does not fail keeps the run sound.** -/
theorem Sound.moved (h : Sound session) (hshowing : Showing session.runner.vm happening vm') (halive : Alive vm')
    (hnone : ∀ c, happening ≠ some (.effectStarted c)) : Sound (session.moved shown host happening vm') := by
  have hshows := hshowing.shows
  refine ⟨hshowing.placed, (hshows.effectfree h.effectfree hnone).resolve_left halive.crashed, ?_,
    length_kindsAfter hshows halive h.level h.length, ?_⟩
  · show Level vm'.natives vm'.frames.length
    cases hshows with
    | crashed hcontrol => exact (halive.crashed hcontrol).elim
    | silent hsilent => exact hsilent.level halive h.level
    | entered hnatives' hframes =>
      rw [hnatives', hframes]
      exact h.level.enter
    | invoked c hloop hnatives' hframes hcontrol =>
      rw [hnatives', hframes]
      exact h.level.succ hloop
    | rejected c e hsilent hcontrol => exact hsilent.level halive h.level
    | overflowed c e hsilent hcontrol => exact hsilent.level halive h.level
    | answered c v hnatives' hframes hcontrol =>
      rw [hnatives', hframes]
      exact h.level
    | tailCalled c hloop hnatives' hframes hcontrol =>
      rw [hnatives', hframes]
      exact h.level
    | tailAnswered c v base rest hnatives hleaves => exact h.level.leaves hnatives hleaves
    | returned v base rest hnatives hleaves => exact h.level.leaves hnatives hleaves
    | effectStarted c hsilent => exact (hnone c rfl).elim
    | effectEnded result rest hnatives hsilent =>
      exact (h.effectfree (hnatives ▸ mem_cons_self ..)).elim
  · show (session.moved shown host happening vm').recorder.nodes.path.length ≤
      (Session.kindsAfter session.runner.kinds happening).count .call
    rw [recorder_moved, length_path_tellAll]
    cases happening with
    | none => exact h.path
    | some shownHere =>
      apply openAfter_le h.path
      · exact fun c hc => hnone c (congrArg some hc)
      · rintro c e rfl
        cases hshows with
        | crashed hcontrol => exact halive.crashed hcontrol
        | overflowed _ _ hsilent hcontrol =>
          obtain ⟨e', hcontrol⟩ := hcontrol
          exact halive.failed e' hcontrol

/-- Where a run has succeeded nothing is open. -/
theorem Sound.path_eq_nil (h : Sound session) (hreturned : session.Returned v) :
    session.recorder.nodes.path = [] := by
  have hbottom := h.level.bottom
  rw [hreturned.natives] at hbottom
  have hdepth : session.runner.vm.frames.length = 0 := some.inj hbottom
  have hkinds : session.runner.kinds = [] := eq_nil_of_length_eq_zero (h.length.trans hdepth)
  have hpath := h.path
  rw [hkinds] at hpath
  exact eq_nil_of_length_eq_zero (Nat.le_zero.mp hpath)

/-! ## Leaps -/

variable (shown host) in
/-- What a whole effect makes of a session. -/
def Session.performed (session : Session) (c : EffectSite) (vm₀ : Vm) (v : Value) : Session :=
  (session.moved shown host (some (.effectStarted c)) vm₀).moved shown host (some (.effectEnded (.ok v)))
    (vm₀.resume v)

variable (shown host world) in
/-- **A step outside of effects, or a whole effect.** -/
inductive Leap (session : Session) : Session → Prop
  | step {o : Outcome} (hcontrol : ¬ session.runner.vm.control.Effectful)
      (hnone : ∀ c, session.next host world ≠ some (.effectStarted c))
      (hstep : session.runner.vm.step session.runner.program host (session.answered host world) (world session).2 =
        some o)
      (halive : Alive o.vm) : Leap session (session.moved shown host (session.next host world) o.vm)
  | effect {c : EffectSite} {vm₀ : Vm} {v : Value}
      (hbegins : EffectBegins session.runner.program host session.runner.nodeIds session.runner.vm c vm₀)
      (hreadable : Readable host v) : Leap session (session.performed shown host c vm₀ v)

variable {vm₀ : Vm}

theorem EffectBegins.sound {c : EffectSite} (h : Sound session)
    (hbegins : EffectBegins session.runner.program host session.runner.nodeIds session.runner.vm c vm₀) (v : Value) :
    Sound (session.performed shown host c vm₀ v) := by
  have hloop : OnLoop session.runner.vm.natives := by
    apply h.placed.looping.resolve_left
    rw [hbegins.control]
    exact id
  have hnatives : (vm₀.resume v).natives = session.runner.vm.natives := hbegins.natives
  have hframes : (vm₀.resume v).frames.length = session.runner.vm.frames.length := hbegins.frames
  refine ⟨⟨?_, .inr ?_, False.elim⟩, ?_, ?_, ?_, ?_⟩
  · show Grounded (vm₀.resume v).natives
    rw [hnatives]
    exact h.placed.grounded
  · show OnLoop (vm₀.resume v).natives
    rw [hnatives]
    exact hloop
  · show Effectfree (vm₀.resume v).natives
    rw [hnatives]
    exact h.effectfree
  · show Level (vm₀.resume v).natives (vm₀.resume v).frames.length
    rw [hnatives, hframes]
    exact h.level
  · show session.runner.kinds.length = (vm₀.resume v).frames.length
    rw [hframes]
    exact h.length
  · show (session.performed shown host c vm₀ v).recorder.nodes.path.length ≤ session.runner.kinds.count .call
    unfold Session.performed
    rw [recorder_moved, length_path_tellAll, recorder_moved, length_path_tellAll]
    exact h.path

theorem Leap.sound (h : Leap shown host world session session') (hsound : Sound session) : Sound session' := by
  cases h with
  | @step o hcontrol hnone hstep halive =>
    have hshowing := step_shows session.runner.nodeIds hsound.placed hstep
    exact hsound.moved hshowing halive hnone
  | effect hbegins hreadable => exact hbegins.sound hsound _

theorem Sound.of_leaps (h : Relation.ReflTransGen (Leap shown host world) session session') (hsound : Sound session) :
    Sound session' := by
  induction h with
  | refl => exact hsound
  | tail _ hleap ih => exact hleap.sound ih

/-- What does not fail is alive. -/
theorem alive_or_doomed (hplaced : Placed vm) (hfree : Effectfree vm.natives) : Alive vm ∨ Doomed vm := by
  by_cases hcrashed : vm.control = .crashed
  · exact .inr (.crashed hcrashed)
  · by_cases hfailed : ∃ e, vm.control = .finished (.error e)
    · obtain ⟨e, hfailed⟩ := hfailed
      exact .inr (.failed e hfailed hplaced.grounded hfree)
    · exact .inl ⟨hcrashed, fun e he => hfailed ⟨e, he⟩⟩

/-- Where an effect has its result the run goes on, or fails. -/
theorem afterEffect_cases (hgrounded : Grounded u.natives) (hfree : Effectfree u.natives)
    (result : Except String Value) :
    Doomed (u.afterEffect input result) ∨ ∃ v, result = .ok v ∧ u.afterEffect input result = u.resume v := by
  unfold Vm.afterEffect
  cases result with
  | error e => exact .inl (doomed_raise hgrounded hfree _)
  | ok v =>
    dsimp only
    cases input.takeExit with
    | some code => exact .inl (doomed_raise hgrounded hfree _)
    | none => exact .inr ⟨v, rfl, rfl⟩

/-- The effects of a run are kept apart from the program, and their results are read back. -/
structure Undisturbed (host : Host) (world : Surroundings) (session : Session) : Prop where
  noCallBack : ¬ session.CallsBack
  readable (v : Value) (hended : session.next host world = some (.effectEnded (.ok v))) : Readable host v

theorem Amid.mem (h : Amid vm₀ u) : Native.effectCall ∈ u.natives := by
  obtain ⟨control, hparts, hloop⟩ := h
  exact mem_append_right _ (mem_cons_self ..)

theorem Going.not_failed (h : Going vm₀ u) (e : VmError) : u.control ≠ .finished (.error e) := by
  intro hcontrol
  have honward := h.onward
  rw [hcontrol] at honward
  rcases honward with heffectful | hcrashed | ⟨callee, args, hcall⟩
  · exact heffectful
  · exact nomatch hcrashed
  · exact nomatch hcall

/-- **A successful run is made of leaps**: outside of effects, and from where its last effect was begun. -/
theorem exists_leaps {start final : Session} (hreturned : final.Returned v)
    (hok : ∀ session, Relation.ReflTransGen (Session.Turns shown host world) start session →
      Undisturbed host world session) (hreach : Relation.ReflTransGen (Session.Turns shown host world) session final)
    (hfrom : Relation.ReflTransGen (Session.Turns shown host world) start session) :
    (Sound session → Relation.ReflTransGen (Leap shown host world) session final) ∧
      ∀ (before : Session) (c : EffectSite) (vm₀ u : Vm), Sound before →
        EffectBegins before.runner.program host before.runner.nodeIds before.runner.vm c vm₀ → Going vm₀ u →
        session = before.moved shown host (some (.effectStarted c)) u →
        Relation.ReflTransGen (Leap shown host world) before final := by
  induction hreach using head_induction_on with
  | refl =>
    refine ⟨fun _ => .refl, fun before c vm₀ u _ _ hgoing hsession => ?_⟩
    have hmem := hgoing.amid.mem
    have hnatives : u.natives = [] := by
      rw [hsession] at hreturned
      exact hreturned.natives
    rw [hnatives] at hmem
    exact nomatch hmem
  | @head session next hturn hreach ih =>
    obtain ⟨ih, ihEffect⟩ := ih (hfrom.tail hturn)
    have hok := hok session hfrom
    obtain ⟨o, ho, rfl⟩ := map_eq_some_iff.mp hturn
    -- a failure would be final
    have hfailed : ¬ Doomed o.vm := fun hdoomed =>
      not_returned_of_doomed hreach (vm_after ▸ hdoomed) hreturned
    refine ⟨fun hsound => ?_, fun before c vm₀ u hsound hbegins hgoing hsession => ?_⟩
    · by_cases hstarts : ∃ c, session.next host world = some (.effectStarted c)
      · obtain ⟨c, hstarts⟩ := hstarts
        have hshown : Trace.happening session.runner.program host session.runner.nodeIds
            (session.answered host world) (world session).2 session.runner.vm = some (.effectStarted c) := hstarts
        obtain ⟨vm₀, hbegins, hgoing⟩ := step_begins hshown ho
        apply ihEffect session c vm₀ o.vm hsound hbegins hgoing
        rw [after_eq_moved hgoing.not_failed]
        exact congrArg (session.moved shown host · o.vm) hstarts
      · have hnone : ∀ c, session.next host world ≠ some (.effectStarted c) := fun c hc => hstarts ⟨c, hc⟩
        have hcontrol : ¬ session.runner.vm.control.Effectful := fun heffectful =>
          hsound.effectfree (hsound.placed.effectful heffectful).mem
        have hshowing := step_shows session.runner.nodeIds hsound.placed ho
        have hfree := (hshowing.shows.effectfree hsound.effectfree hnone).resolve_left fun hcrashed =>
          hfailed (.crashed hcrashed)
        have halive := (alive_or_doomed hshowing.placed hfree).resolve_right hfailed
        rw [after_eq_moved halive.failed] at ih
        exact .head (.step hcontrol hnone ho halive) (ih (hsound.moved hshowing halive hnone))
    · subst hsession
      have hcall : ∀ callee args, u.control ≠ .invokeClosure callee args := fun callee args hcall =>
        hok.noCallBack ⟨hgoing.amid.mem, callee, args, hcall⟩
      rcases @Going.step _ _ before.runner.nodeIds _ _ _ _ _ hgoing ho hcall with
        hcrashed | ⟨hgoing', hnone⟩ | ⟨result, hended, hresult⟩
      · exact (hfailed (.crashed hcrashed)).elim
      · apply ihEffect before c vm₀ o.vm hsound hbegins hgoing'
        rw [after_eq_moved hgoing'.not_failed]
        exact congrArg ((before.moved shown host (some (.effectStarted c)) u).moved shown host · o.vm) hnone
      · have hgrounded : Grounded vm₀.natives := hbegins.natives ▸ hsound.placed.grounded
        have hfree : Effectfree vm₀.natives := hbegins.natives ▸ hsound.effectfree
        rcases afterEffect_cases (u := { vm₀ with control := .replied result }) hgrounded hfree result with
          hdoomed | ⟨v, rfl, hresume⟩
        · exact (hfailed (hresult ▸ hdoomed)).elim
        · have hreadable := hok.readable v hended
          have hvm : o.vm = vm₀.resume v := hresult.trans hresume
          have hafter : (before.moved shown host (some (.effectStarted c)) u).after shown host
              (Session.answered host world (before.moved shown host (some (.effectStarted c)) u))
              (world (before.moved shown host (some (.effectStarted c)) u)).2 o =
                before.performed shown host c vm₀ v := by
            rw [after_eq_moved (by rw [hvm]; exact nofun), hvm]
            exact congrArg ((before.moved shown host (some (.effectStarted c)) u).moved shown host · (vm₀.resume v))
              hended
          rw [hafter] at ih
          exact .head (.effect hbegins hreadable) (ih (hbegins.sound hsound v))

end Leaps

end LexLang.Trace
