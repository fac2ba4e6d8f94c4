/-
# LexLang.Trace.Replay — replays of a recorded run

`replay_reproduces`: a run that succeeded is reproduced from the outputs of the effects in its
trace, without the handler, where it is `Replayable`.

`json_to_value` does not read back every value (`readable_iff`), the overrides of one node id are all but one lost,
and what the program does inside of an effect is not done again: the trace of a run outside of `Replayable` need
not lead back to it (`tuple_is_replayed_as_list`).
-/
import LexLang.Trace.Leaps

namespace LexLang.Trace

open LexLang.Machine
open List Option Relation.ReflTransGen

/-! ## What stays in a trace -/

section Closed

variable {shown : Shown} {host : Host} {world : Surroundings} {session session' : Session}

theorem closed_subset_tellAll (recorder : RecorderState) (calls : List TracerCall) :
    recorder.nodes.closed ⊆ (recorder.tellAll shown calls).nodes.closed := by
  induction calls generalizing recorder with
  | nil => exact fun _ h => h
  | cons call calls ih =>
    have hcall : recorder.nodes.closed ⊆ (recorder.tell shown call).nodes.closed := by
      cases call with
      | enter_call | enter_effect =>
        intro node hnode
        show node ∈ (OpenForest.enter _ _).closed
        rw [OpenForest.closed_enter]
        exact hnode
      | exit_ok | exit_err | exit_call_tail => exact OpenForest.closed_subset_exit _ _
    exact fun node hnode => ih _ (hcall hnode)

theorem closed_subset_moved (happening : Option Happening) (vm : Vm) :
    session.recorder.nodes.closed ⊆ (session.moved shown host happening vm).recorder.nodes.closed := by
  rw [recorder_moved]
  exact closed_subset_tellAll _ _

/-- **What is closed stays in the trace.** -/
theorem Leap.closed_subset (h : Leap shown host world session session') :
    session.recorder.nodes.closed ⊆ session'.recorder.nodes.closed := by
  cases h with
  | step hcontrol hnone hstep halive => exact closed_subset_moved _ _
  | effect hbegins hreadable =>
    exact fun node hnode => closed_subset_moved _ _ (closed_subset_moved _ _ hnode)

theorem closed_subset_of_leaps (h : Relation.ReflTransGen (Leap shown host world) session session') :
    session.recorder.nodes.closed ⊆ session'.recorder.nodes.closed := by
  induction h with
  | refl => exact fun _ h => h
  | tail _ hleap ih => exact fun node hnode => hleap.closed_subset (ih hnode)

/-- The node of an effect, with its result. -/
theorem mem_closed_performed (c : EffectSite) (vm₀ : Vm) (v : Value) :
    Session.setOutput (value_to_json shown v) (Session.effectNode shown c) ∈
      (session.performed shown host c vm₀ v).recorder.nodes.closed := by
  unfold Session.performed
  rw [recorder_moved, recorder_moved]
  exact OpenForest.mem_closed_exit _ rfl _

end Closed

/-! ## Overrides -/

/-- Every effect with an output is overridden with it. -/
def Covers (overrides : String → Option Json.Value) (nodes : List TraceNode) : Prop :=
  ∀ node ∈ nodes, node.kind = .effect → ∀ output, node.output = some output →
    overrides node.nodeId = some output

theorem Covers.mono {overrides : String → Option Json.Value} {nodes nodes' : List TraceNode}
    (h : Covers overrides nodes') (hsubset : nodes ⊆ nodes') : Covers overrides nodes := fun node hnode =>
  h node (hsubset hnode)

theorem replay_with_overrides_eq {overrides : List Override}
    (hone : ∀ o ∈ overrides, ∀ o' ∈ overrides, o.nodeId = o'.nodeId → o.output = o'.output) {o : Override}
    (ho : o ∈ overrides) : replay_with_overrides overrides o.nodeId = some o.output := by
  have hfold : ∀ (rest : List Override) (m : String → Option Json.Value),
      (∀ o' ∈ rest, o'.nodeId = o.nodeId → o'.output = o.output) →
        (o ∈ rest ∨ m o.nodeId = some o.output) →
          rest.foldl (fun (m : String → Option Json.Value) (o : Override) =>
            Function.update m o.nodeId (some o.output)) m o.nodeId = some o.output := by
    intro rest
    induction rest with
    | nil => exact fun m _ h => h.resolve_left nofun
    | cons first rest ih =>
      intro m hsame h
      rw [foldl_cons]
      apply ih _ fun o' ho' => hsame o' (mem_cons_of_mem _ ho')
      by_cases hid : o.nodeId = first.nodeId
      · right
        rw [hid, Function.update_self, hsame first (mem_cons_self ..) hid.symm]
      · rw [Function.update_of_ne hid]
        refine h.imp_left fun hmem => ?_
        rcases mem_cons.mp hmem with rfl | hmem
        · exact (hid rfl).elim
        · exact hmem
  exact hfold overrides _ (fun o' ho' hid => hone o' ho' o ho hid) (.inl ho)

/-- **A trace covers its effects**, where those with one node id have one output. -/
theorem covers_effectOutputs {tree : TraceTree}
    (hone : ∀ o ∈ tree.effectOutputs, ∀ o' ∈ tree.effectOutputs, o.nodeId = o'.nodeId → o.output = o'.output) :
    Covers (replay_with_overrides tree.effectOutputs) (dataOf tree.nodes) := by
  intro node hnode hkind output houtput
  obtain ⟨entry, hentry, rfl⟩ := mem_map.mp hnode
  have hmem : (⟨entry.2.nodeId, output⟩ : Override) ∈ tree.effectOutputs := by
    refine mem_filterMap.mpr ⟨entry, hentry, ?_⟩
    simp only [hkind, houtput]
  exact replay_with_overrides_eq hone hmem

/-! ## Replays -/

section Replay

variable {shown : Shown} {host : Host} {world world' : Surroundings} {session session' : Session}
  {overrides : String → Option Json.Value}

theorem tellAll_with_overrides (recorder : RecorderState) (calls : List TracerCall) :
    (recorder.with_overrides overrides).tellAll shown calls =
      (recorder.tellAll shown calls).with_overrides overrides := by
  induction calls generalizing recorder with
  | nil => rfl
  | cons call calls ih =>
    have hcall : (recorder.with_overrides overrides).tell shown call =
        (recorder.tell shown call).with_overrides overrides := by
      cases call <;> rfl
    show ((recorder.with_overrides overrides).tell shown call).tellAll shown calls = _
    rw [hcall]
    exact ih _

theorem moved_withOverrides (happening : Option Happening) (vm : Vm) :
    (session.withOverrides overrides).moved shown host happening vm =
      (session.moved shown host happening vm).withOverrides overrides := by
  have haccounted : accounted shown host (session.withOverrides overrides) happening =
      (accounted shown host session happening).withOverrides overrides := by
    cases happening with
    | none => rfl
    | some h =>
      have htold : ∀ calls, toldSession shown (session.withOverrides overrides) calls =
          (toldSession shown session calls).withOverrides overrides := fun calls =>
        congrArg (fun recorder => { session with recorder }) (tellAll_with_overrides session.recorder calls)
      show (toldSession shown (session.withOverrides overrides)
        (h.tracerCalls (session.runner.kinds.headD .entry))).account shown host h = _
      rw [htold]
      cases h with
      | effectEnded result => cases result <;> rfl
      | _ => rfl
  unfold Session.moved
  rw [haccounted]
  rfl

theorem turn_of_step {o : Outcome} {happening : Option Happening}
    (hstep : session.runner.vm.step session.runner.program host (session.answered host world) (world session).2 =
      some o) (hnext : session.next host world = happening) (halive : ∀ e, o.vm.control ≠ .finished (.error e)) :
    session.Turns shown host world (session.moved shown host happening o.vm) := by
  show Option.map _ _ = _
  rw [hstep, map_some, after_eq_moved halive]
  exact congrArg (fun happening => some (session.moved shown host happening o.vm)) hnext

/-- **A leap is replayed**, without the handler. -/
theorem Leap.replayed (h : Leap shown host world session session') (hreplay : world.Replay world' overrides)
    (hcovers : Covers overrides session'.recorder.nodes.closed) :
    Relation.ReflTransGen (Session.TurnsAlone shown host world') (session.withOverrides overrides)
      (session'.withOverrides overrides) := by
  cases h with
  | @step o hcontrol hnone hstep halive =>
    have halike : AnsweredAlike (session.answered host world)
        ((session.withOverrides overrides).answered host world') (world session).2
        (world' (session.withOverrides overrides)).2 :=
      ⟨hreplay.hook session, hreplay.answers session, hreplay.budget session⟩
    obtain ⟨o', hstep', hvm, hnext⟩ := step_alike session.runner.nodeIds halike hcontrol hnone hstep halive
    have hnext' : (session.withOverrides overrides).next host world' = session.next host world := hnext
    have hturn := @turn_of_step shown _ _ (session.withOverrides overrides) _ _ hstep' hnext'
      (hvm ▸ halive.failed)
    rw [hvm, moved_withOverrides] at hturn
    refine .single ⟨hturn, fun hconsults => ?_⟩
    obtain ⟨c, hc⟩ := hconsults.1
    exact hnone c (hnext'.symm.trans hc)
  | @effect c vm₀ v hbegins hreadable =>
    have hcovered : overrides c.nodeId = some (value_to_json shown v) :=
      hcovers _ (mem_closed_performed c vm₀ v) rfl _ rfl
    have hnext : (session.withOverrides overrides).next host world' = some (.effectStarted c) :=
      hbegins.shown _ _
    have hoverride : (session.withOverrides overrides).override host world' = some v := by
      unfold Session.override
      rw [hnext]
      show (overrides c.nodeId).map (json_to_value host) = _
      rw [hcovered, map_some, (readable_iff v).mpr hreadable]
    -- the effect has its result at once
    obtain ⟨o, hstep, hvm⟩ := hbegins.overridden ((session.withOverrides overrides).answered host world')
      (world' (session.withOverrides overrides)).2 v hoverride
    have hbegin := @turn_of_step shown _ _ (session.withOverrides overrides) _ _ hstep hnext
      (by rw [hvm]; exact nofun)
    rw [hvm, moved_withOverrides] at hbegin
    have hend : ((session.moved shown host (some (.effectStarted c))
        (inEffect vm₀ [] (.replied (.ok v)))).withOverrides overrides).Turns shown host world'
          ((session.performed shown host c vm₀ v).withOverrides overrides) := by
      have hexit := hreplay.takeExit (session.moved shown host (some (.effectStarted c))
        (inEffect vm₀ [] (.replied (.ok v))))
      generalize hmiddle : session.moved shown host (some (.effectStarted c))
        (inEffect vm₀ [] (.replied (.ok v))) = middle at hexit
      have hmiddleVm : middle.runner.vm = inEffect vm₀ [] (.replied (.ok v)) := hmiddle ▸ rfl
      have hended : (middle.withOverrides overrides).runner.vm.step middle.runner.program host
          ((middle.withOverrides overrides).answered host world') (world' (middle.withOverrides overrides)).2 =
            some (.quiet (world' (middle.withOverrides overrides)).2 (vm₀.resume v)) := by
        show middle.runner.vm.step _ _ _ _ = _
        rw [hmiddleVm]
        show some (Outcome.quiet _ (Vm.afterEffect _ _ _)) = _
        unfold Vm.afterEffect Session.answered
        dsimp only
        rw [hexit]
        rfl
      have hnextEnded : (middle.withOverrides overrides).next host world' = some (.effectEnded (.ok v)) := by
        show happening _ _ _ _ _ middle.runner.vm = _
        rw [hmiddleVm]
        rfl
      have hturn := @turn_of_step shown _ _ (middle.withOverrides overrides) _ _ hended hnextEnded
        nofun
      rw [moved_withOverrides, ← hmiddle] at hturn
      exact hmiddle ▸ hturn
    refine .head ⟨hbegin, fun hconsults => ?_⟩ (.single ⟨hend, fun hconsults => ?_⟩)
    · exact nomatch hoverride.symm.trans hconsults.2
    · obtain ⟨c', hc'⟩ := hconsults.1
      exact nomatch hc'

theorem replayed_of_leaps (h : Relation.ReflTransGen (Leap shown host world) session session')
    (hreplay : world.Replay world' overrides) (hcovers : Covers overrides session'.recorder.nodes.closed) :
    Relation.ReflTransGen (Session.TurnsAlone shown host world') (session.withOverrides overrides)
      (session'.withOverrides overrides) := by
  induction h using head_induction_on with
  | refl => exact .refl
  | head hleap hleaps ih => exact (hleap.replayed hreplay (hcovers.mono (closed_subset_of_leaps hleaps))).trans ih

variable {program : Program} {nodeIds : Nat → Nat → String} {stepLimit fnId : Nat} {args : List Value} {v : Value}

theorem sound_calling : Sound (.calling program nodeIds stepLimit overrides fnId args) where
  placed := ⟨trivial, .inl trivial, False.elim⟩
  effectfree := nofun
  level := ⟨pairwise_singleton _ _, rfl⟩
  length := rfl
  path := Nat.le_refl _

variable (shown host world') in
/-- **A replay reproduces a run**: the handler is not asked, the result is the same, and the trace does not part
from the recorded one. -/
def Reproduces (start : Session) (v : Value) (tree : TraceTree) : Prop :=
  ∃ session, Relation.ReflTransGen (Session.TurnsAlone shown host world') start session ∧ session.Returned v ∧
    diff_runs tree (session.recorder.finalize tree.rootTarget tree.rootInput tree.rootOutput tree.rootError) = none

/-- **A replay reproduces a run that succeeded**, where what the trace keeps of its effects is all of them. -/
theorem replay_reproduces (hrun : Relation.ReflTransGen (Session.Turns shown host world)
      (.calling program nodeIds stepLimit (fun _ => none) fnId args) session)
    (hreturned : session.Returned v) (rootTarget : String) (rootInput : Json.Value) (rootOutput : Option Json.Value)
    (rootError : Option String)
    (hreplayable : Replayable shown host world (.calling program nodeIds stepLimit (fun _ => none) fnId args)
      (session.recorder.finalize rootTarget rootInput rootOutput rootError))
    (hreplay : world.Replay world' (replay_with_overrides
      (session.recorder.finalize rootTarget rootInput rootOutput rootError).effectOutputs)) :
    Reproduces shown host world' (.calling program nodeIds stepLimit (replay_with_overrides
        (session.recorder.finalize rootTarget rootInput rootOutput rootError).effectOutputs) fnId args) v
      (session.recorder.finalize rootTarget rootInput rootOutput rootError) := by
  have hok : ∀ other, Relation.ReflTransGen (Session.Turns shown host world)
      (.calling program nodeIds stepLimit (fun _ => none) fnId args) other → Undisturbed host world other :=
    fun other hreach => ⟨hreplayable.noCallBack other hreach, hreplayable.readable other hreach⟩
  have hleaps := (exists_leaps hreturned hok hrun .refl).1 sound_calling
  have hsound : Sound session := .of_leaps hleaps sound_calling
  have hclosed := OpenForest.closed_of_path_nil _ (hsound.path_eq_nil hreturned)
  have hcovers : Covers (replay_with_overrides
      (session.recorder.finalize rootTarget rootInput rootOutput rootError).effectOutputs)
        session.recorder.nodes.closed := by
    rw [hclosed]
    exact covers_effectOutputs fun o ho o' ho' => hreplayable.oneOutput o o' ho ho'
  exact ⟨_, replayed_of_leaps hleaps hreplay hcovers, ⟨hreturned.natives, hreturned.control⟩, walk_pair_self _⟩

end Replay

/-! ## Runs -/

section Runs

variable {shown : Shown} {host : Host} {world : Surroundings} {start final session : Session} {n : Nat}

variable (shown host world) in
/-- So many turns. -/
def Session.turnsFor : Nat → Session → Option Session
  | 0, session => some session
  | n + 1, session => (session.turn shown host world).bind (turnsFor n)

theorem reach_of_turnsFor (h : start.turnsFor shown host world n = some final) :
    Relation.ReflTransGen (Session.Turns shown host world) start final := by
  induction n generalizing start with
  | zero => exact some.inj h ▸ .refl
  | succ n ih =>
    obtain ⟨next, hnext, hrest⟩ := bind_eq_some_iff.mp h
    exact .head hnext (ih hrest)

/-- What is reached is reached in so many turns, where these lead to an end. -/
theorem exists_turnsFor (h : start.turnsFor shown host world n = some final)
    (hend : final.turn shown host world = none)
    (hreach : Relation.ReflTransGen (Session.Turns shown host world) start session) :
    ∃ k ≤ n, start.turnsFor shown host world k = some session := by
  induction hreach using head_induction_on generalizing n with
  | refl => exact ⟨0, Nat.zero_le n, rfl⟩
  | @head start next hturn hreach ih =>
    cases n with
    | zero =>
      obtain rfl := some.inj h
      exact nomatch hend.symm.trans hturn
    | succ n =>
      obtain ⟨next', hnext', hrest⟩ := bind_eq_some_iff.mp h
      obtain rfl := some.inj (hnext'.symm.trans hturn)
      obtain ⟨k, hk, hreached⟩ := ih hrest
      exact ⟨k + 1, Nat.succ_le_succ hk, bind_eq_some_iff.mpr ⟨next', hturn, hreached⟩⟩

end Runs

/-- `fn main() -> [io] .. { io.read() }`. -/
def readProgram : Program where
  constants := [.str "io", .str "read"]
  functions := [⟨"main", 0, 0, [.effectCall 0 1 0, .return], [⟨"io", none⟩], 0, [], 0⟩]
  functionNames _ := none
  recordShapes := []

/-- `main` is called, and its effect has a result. -/
def reading (overrides : String → Option Json.Value) : Session :=
  .calling readProgram (fun fnId pc => toString fnId ++ "." ++ toString pc) 100 overrides 0 []

def handler (v : Value) : Surroundings := fun _ => ({ plainInput with dispatch := .ok v }, .start none)

theorem replay_handler (v v' : Value) (overrides : String → Option Json.Value) :
    (handler v).Replay (handler v') overrides :=
  ⟨fun _ => rfl, fun _ => rfl, fun _ _ left h => ⟨left, h⟩, fun _ => rfl⟩

/-- The output of the only effect of a trace, which is its only node. -/
def Session.soleOutput (session : Session) : Option Override :=
  match session.recorder.nodes.completed with
  | [.node ⟨nodeId, .effect, _, _, some output, _⟩ []] => some ⟨nodeId, output⟩
  | _ => none

variable {session : Session}

theorem effectOutputs_of_sole {o : Override} (h : session.soleOutput = some o)
    (rootTarget : String) (rootInput : Json.Value) (rootOutput : Option Json.Value) (rootError : Option String) :
    (session.recorder.finalize rootTarget rootInput rootOutput rootError).effectOutputs = [o] := by
  unfold Session.soleOutput at h
  split at h
  · rename_i hcompleted
    obtain rfl := some.inj h
    unfold TraceTree.effectOutputs RecorderState.finalize
    rw [hcompleted, listing_cons, listing_nil, listing_nil]
    rfl
  · exact nomatch h

/-- Whether the result is a tuple, when the call has succeeded. -/
def Session.isTuple (session : Session) : Option Bool :=
  match session.runner.vm.natives, session.runner.vm.control with
  | [], .finished (.ok (.tuple _)) => some true
  | [], .finished _ => some false
  | _, _ => none

theorem isTuple_of_returned {items : List Value} (h : session.Returned (.tuple items)) :
    session.isTuple = some true := by
  unfold Session.isTuple
  rw [h.natives, h.control]

theorem returned_of_isTuple (h : session.isTuple = some true) :
    ∃ items, session.Returned (.tuple items) := by
  unfold Session.isTuple at h
  split at h
  · rename_i items hnatives hcontrol
    exact ⟨items, hnatives, hcontrol⟩
  · exact nomatch some.inj h
  · exact nomatch h

/-- A tuple is read back as a list. -/
theorem tuple_is_replayed_as_list : ¬ ∀ (shown : Shown) (host : Host) (world world' : Surroundings)
    (program : Program) (nodeIds : Nat → Nat → String) (stepLimit fnId : Nat) (args : List Value) (session : Session)
    (v : Value) (rootTarget : String) (rootInput : Json.Value) (rootOutput : Option Json.Value)
    (rootError : Option String), Relation.ReflTransGen (Session.Turns shown host world)
      (.calling program nodeIds stepLimit (fun _ => none) fnId args) session → session.Returned v →
    world.Replay world' (replay_with_overrides
      (session.recorder.finalize rootTarget rootInput rootOutput rootError).effectOutputs) →
    Reproduces shown host world' (.calling program nodeIds stepLimit (replay_with_overrides
        (session.recorder.finalize rootTarget rootInput rootOutput rootError).effectOutputs) fnId args) v
      (session.recorder.finalize rootTarget rootInput rootOutput rootError) := by
  intro h
  let world := handler (.tuple [.unit])
  let turns := Session.turnsFor plainShown plainHost world
  have hrecorded : ((turns 4 (reading fun _ => none)).bind fun session =>
    if session.isTuple = some true then session.soleOutput else none).isSome = true := by decide +kernel
  obtain ⟨o, ho⟩ := isSome_iff_exists.mp hrecorded
  obtain ⟨session, hsession, hseen⟩ := bind_eq_some_iff.mp ho
  have hreplayed : ((((turns 4 (reading fun _ => none)).bind fun session =>
    if session.isTuple = some true then session.soleOutput else none).bind fun o =>
      turns 4 (reading (replay_with_overrides [o]))).map fun session =>
        (session.turn plainShown plainHost world).isNone) = some true := by decide +kernel
  have hlists : ((((turns 4 (reading fun _ => none)).bind fun session =>
      if session.isTuple = some true then session.soleOutput else none).map fun o => (range 5).all fun k =>
        ((turns k (reading (replay_with_overrides [o]))).map Session.isTuple) != some (some true))) = some true := by
    decide +kernel
  split at hseen
  · rename_i htuple
    obtain ⟨items, hreturned⟩ := returned_of_isTuple htuple
    obtain ⟨session', hreach, hreturned', -⟩ := h plainShown plainHost world world _ _ _ _ _ session _ "main" .null
      none none (reach_of_turnsFor hsession) hreturned (replay_handler _ _ _)
    rw [effectOutputs_of_sole hseen] at hreach
    rw [ho] at hreplayed hlists
    obtain ⟨final, hfinal, hend⟩ := map_eq_some_iff.mp hreplayed
    have hturns : Relation.ReflTransGen (Session.Turns plainShown plainHost world)
        (reading (replay_with_overrides [o])) session' := hreach.lift id fun _ _ hturn => hturn.1
    obtain ⟨k, hk, hsession'⟩ := exists_turnsFor hfinal (isNone_iff_eq_none.mp hend) hturns
    have hnot := all_eq_true.mp (some.inj hlists) k (mem_range.mpr (Nat.lt_succ_of_le hk))
    rw [show turns k (reading (replay_with_overrides [o])) = some session' from hsession', map_some,
      isTuple_of_returned hreturned'] at hnot
    exact nomatch hnot
  · exact nomatch hseen

/-- Nothing stands against a replay: the effect has no result but `unit`, and calls nothing. -/
def Session.fits (host : Host) (world : Surroundings) (session : Session) : Bool :=
  (match session.next host world with
    | some (.effectEnded (.ok .unit)) => true
    | some (.effectEnded _) => false
    | _ => true) &&
  match session.runner.vm.control with
  | .invokeClosure .. => false
  | _ => true

theorem undisturbed_of_fits {host : Host} {world : Surroundings}
    (h : session.fits host world = true) : Undisturbed host world session := by
  obtain ⟨hresult, hcontrol⟩ := Bool.and_eq_true_iff.mp h
  refine ⟨?_, fun v hended => ?_⟩
  · rintro ⟨-, callee, args, hcall⟩
    rw [hcall] at hcontrol
    exact nomatch hcontrol
  · rw [hended] at hresult
    cases v with
    | unit => trivial
    | _ => exact nomatch hresult

def Session.isUnit (session : Session) : Bool :=
  match session.runner.vm.natives, session.runner.vm.control with
  | [], .finished (.ok .unit) => true
  | _, _ => false

theorem returned_of_isUnit (h : session.isUnit = true) : session.Returned .unit := by
  unfold Session.isUnit at h
  split at h
  · rename_i hnatives hcontrol
    exact ⟨hnatives, hcontrol⟩
  · cases h

/-- A replay under a handler that would have another result. -/
theorem replay_reproduces_unit : ∃ session : Session, session.Returned .unit ∧
    Reproduces plainShown plainHost (handler (.tuple []))
      (reading (replay_with_overrides (session.recorder.finalize "main" .null none none).effectOutputs)) .unit
      (session.recorder.finalize "main" .null none none) := by
  let world := handler .unit
  let turns := Session.turnsFor plainShown plainHost world
  have hrecorded : ((turns 4 (reading fun _ => none)).map fun session =>
      session.isUnit && ((session.turn plainShown plainHost world).isNone && session.soleOutput.isSome)) =
          some true := by
    decide +kernel
  have hfits : (range 5).all (fun k => (turns k (reading fun _ => none)).all (Session.fits plainHost world)) =
      true := by decide +kernel
  obtain ⟨session, hsession, hseen⟩ := map_eq_some_iff.mp hrecorded
  obtain ⟨hreturned, hrest⟩ := Bool.and_eq_true_iff.mp hseen
  obtain ⟨hend, hsole⟩ := Bool.and_eq_true_iff.mp hrest
  obtain ⟨o, hsole⟩ := isSome_iff_exists.mp hsole
  have hok : ∀ other, Relation.ReflTransGen (Session.Turns plainShown plainHost world) (reading fun _ => none) other →
      Undisturbed plainHost world other := by
    intro other hreach
    obtain ⟨k, hk, hother⟩ := exists_turnsFor hsession (isNone_iff_eq_none.mp hend) hreach
    have hall := all_eq_true.mp hfits k (mem_range.mpr (Nat.lt_succ_of_le hk))
    rw [show turns k (reading fun _ => none) = some other from hother] at hall
    exact undisturbed_of_fits hall
  have hreturned := returned_of_isUnit hreturned
  refine ⟨session, hreturned, replay_reproduces (reach_of_turnsFor hsession) hreturned "main" .null none none
    ⟨fun other hreach => (hok other hreach).readable, fun other hreach => (hok other hreach).noCallBack, ?_⟩
    (replay_handler _ _ _)⟩
  intro first second hfirst hsecond _
  rw [effectOutputs_of_sole hsole, mem_singleton] at hfirst hsecond
  rw [hfirst, hsecond]

end LexLang.Trace
