/-
# LexLang.Store.Conduct — what each call is seen doing

The rules of the calls themselves. `Seen` says how a program ends: with which events of its own, newest
first, and with what result. A checked write path is seen planning, passing the type check and
landing, in this order; a gated merge is seen reading the head it goes back to, landing, judging what
it landed, and then either passing or rolling back.
-/
import LexLang.Store.Landing

namespace LexLang

open LexLang.Vcs LexLang.Concurrent
open List

section Rules

variable {ι : Type} [DecidableEq ι] {env : Env} {G : ι → List Event → Event → Prop} {i : ι}
  {w : World ι Store Event} {branch : BranchName} {ρ ρ' : Type}

/-- **The program is seen doing `events`, and `shape` relates them to its result.** -/
def Seen (i : ι) (w : World ι Store Event) (shape : Except StoreError ρ → List Event → Prop)
    (result : Except StoreError ρ) (w' : World ι Store Event) : Prop :=
  ∃ events, Grew i events w w' ∧ shape result events

variable {shape : Except StoreError ρ → List Event → Prop} {result : Except StoreError ρ} {w' : World ι Store Event}

theorem Seen.of_unseen (hgrew : Grew i [] w w') (h : shape result []) : Seen i w shape result w' := ⟨[], hgrew, h⟩

variable {w'' : World ι Store Event}

/-- What is seen of a program is seen of it and what ran before. -/
theorem Seen.after {events : List Event} (hgrew : Grew i events w w')
    (h : Seen i w' (fun result more => shape result (more ++ events)) result w'') : Seen i w shape result w'' := by
  obtain ⟨more, hmore, hshape⟩ := h
  exact ⟨more ++ events, hgrew.trans hmore, hshape⟩

theorem Seen.after_unseen (hgrew : Grew i [] w w') (h : Seen i w' shape result w'') : Seen i w shape result w'' := by
  obtain ⟨events, hmore, hshape⟩ := h
  exact ⟨events, by simpa using hgrew.trans hmore, hshape⟩

variable {f : ρ → StoreProg ρ'}

/-- **Sequencing**, event lists included. -/
theorem sat_bind_seen {p : StoreProg ρ} {shape' : Except StoreError ρ' → List Event → Prop}
    (hp : Sat (spec env G) i (Seen i w shape) p.run w)
    (hok : ∀ a events w', shape (.ok a) events → Grew i events w w' →
      Sat (spec env G) i (Seen i w' fun result more => shape' result (more ++ events)) (f a).run w')
    (herror : ∀ e events, shape (.error e) events → shape' (.error e) events) :
    Sat (spec env G) i (Seen i w shape') (p >>= f).run w := by
  refine sat_bind hp ?_ ?_
  · rintro a w' ⟨events, hgrew, hshape⟩
    exact (hok a events w' hshape hgrew).mono fun _ _ h => h.after hgrew
  · rintro e w' ⟨events, hgrew, hshape⟩
    exact ⟨events, hgrew, herror e events hshape⟩

/-- Sequencing after a program that is not seen. -/
theorem sat_then_seen {p : StoreProg ρ} {shape : Except StoreError ρ' → List Event → Prop}
    (hp : Sat (spec env G) i (fun _ w' => Grew i [] w w') p.run w)
    (hok : ∀ a w', Grew i [] w w' → Sat (spec env G) i (Seen i w' shape) (f a).run w')
    (herror : ∀ e, shape (.error e) []) : Sat (spec env G) i (Seen i w shape) (p >>= f).run w := by
  refine sat_bind hp ?_ fun e w' h => .of_unseen h (herror e)
  exact fun a w' hgrew => (hok a w' hgrew).mono fun _ _ h => h.after_unseen hgrew

theorem sat_pure_seen {a : ρ}
    (h : shape (.ok a) []) : Sat (spec env G) i (Seen i w shape) (pure a : StoreProg ρ).run w :=
  ⟨[], Grew.refl i w, h⟩

theorem sat_throw_seen {e : StoreError}
    (h : shape (.error e) []) : Sat (spec env G) i (Seen i w shape) (throw e : StoreProg ρ).run w :=
  ⟨[], Grew.refl i w, h⟩

/-- A step that moves no head is seen as its label says. -/
theorem sat_still {act : Store → Except StoreError ρ × Store} {label : Bool → Store → Option Event}
    (hact : ∀ store, (act store).2 = store) (hmoves : ∀ ok store, (label ok store).bind Event.moves = none)
    (hholds : ∀ ok store, store.WellFormed env.digest → ∀ event, label ok store = some event → event.Holds env store)
    (hG : ∀ ok store event, label ok store = some event → G i (own i w.trace) event)
    (hfail : ∀ store, shape (.error .io) (label false store).toList)
    (hshape : ∀ store, shape (act store).1 (label true store).toList) :
    Sat (spec env G) i (Seen i w shape) (access act label).run w := by
  refine sat_atom fun w' hgrew hwf ok _ => ?_
  cases ok with
  | false =>
    refine ⟨.still hwf (hmoves _ _) (hholds _ _ hwf), hG _ _, ?_⟩
    exact fun w'' hgrew' _ => ⟨_, hgrew', hfail _⟩
  | true =>
    rw [hact]
    refine ⟨.still hwf (hmoves _ _) (hholds _ _ hwf), hG _ _, ?_⟩
    exact fun w'' hgrew' _ => ⟨_, hgrew', hshape _⟩

/-! ## The checked write path -/

/-- The events of a type check: the candidate, when it passed. -/
theorem sat_typeCheck {candidate : HeadMap} (hG : G i (own i w.trace) (.passed candidate)) :
    Sat (spec env G) i
      (Seen i w fun result events =>
        match result with
        | .ok true => events = [.passed candidate]
        | _ => events = [])
      (typeCheck env candidate).run w := by
  refine sat_still (fun _ => rfl) ?_ ?_ ?_ (fun _ => rfl) ?_
  · intro ok store
    split <;> rfl
  · intro ok store hwf event hevent
    split at hevent
    · rename_i hpass
      rw [← Option.some.inj hevent]
      exact (Bool.and_eq_true_iff.mp hpass).2
    · cases hevent
  · intro ok store event hevent
    split at hevent
    · rw [← Option.some.inj hevent]
      exact hG
    · cases hevent
  · intro store
    cases env.typeChecks candidate <;> simp

theorem sat_planFrom (hG : ∀ head map, G i (own i w.trace) (.planned branch head map)) :
    Sat (spec env G) i
      (Seen i w fun result events =>
        match result with
        | .ok map => ∃ head, events = [.planned branch head map]
        | .error _ => events = [])
      (planFrom branch).run w := by
  refine (sat_readHeadMap (fun _ _ => rfl) ?_ ?_).mono ?_
  · intro store event hevent
    rw [← Option.some.inj hevent]
    exact ⟨rfl, rfl⟩
  · intro head map event hevent
    rw [← Option.some.inj hevent]
    exact hG head map
  · intro result w' h
    cases result with
    | ok map =>
      obtain ⟨head, hgrew, _⟩ := h
      exact ⟨_, hgrew, head, rfl⟩
    | error e => exact ⟨_, h, rfl⟩

/-- **How a write path that plans and checks ends**: seen landing the transition after `before`, or
seen doing the first part of `before` only. -/
def LandsAfter (branch : BranchName) (transition : StageTransition) (before : List Event)
    (result : Except StoreError OpId) (events : List Event) : Prop :=
  match result with
  | .ok id => ∃ parent record filed, record.opId = id ∧ record.produces = transition ∧
      events = .landed branch parent record filed :: before
  | .error _ => events <:+ before

variable {transition : StageTransition} {op : Operation}

theorem Lands.seen {result : Except StoreError OpId}
    (h : Lands i branch op transition w result w') : Seen i w (LandsAfter branch transition []) result w' := by
  cases result with
  | ok id =>
    obtain ⟨parent, record, filed, hid, _, hproduces, hgrew⟩ := h
    exact ⟨_, hgrew, parent, record, filed, hid, hproduces, rfl⟩
  | error e => exact ⟨[], h, suffix_rfl⟩

theorem LandsAfter.append {before older : List Event}
    {result : Except StoreError OpId} {events : List Event} (h : LandsAfter branch transition before result events) :
    LandsAfter branch transition (before ++ older) result (events ++ older) := by
  cases result with
  | ok id =>
    obtain ⟨parent, record, filed, hid, hproduces, rfl⟩ := h
    exact ⟨parent, record, filed, hid, hproduces, rfl⟩
  | error e =>
    obtain ⟨newer, rfl⟩ := h
    exact ⟨newer, (append_assoc _ _ _).symm⟩

section Checked

variable {op : Operation} {transition : StageTransition} {candidate : HeadMap}
  {intent : Option Intent}

/-- What is asked of the guard for a landing after the events `before`. -/
def MayLand (G : ι → List Event → Event → Prop) (i : ι) (branch : BranchName)
    (transition : StageTransition) (before : List Event) : Prop :=
  ∀ parent record filed, record.produces = transition →
    G i before (.landed branch parent record filed)

/-- **The gated write path** passes the type check before it lands. -/
theorem sat_applyOperationChecked (hpass : G i (own i w.trace) (.passed candidate))
    (hland : MayLand G i branch transition (.passed candidate :: own i w.trace)) :
    Sat (spec env G) i (Seen i w (LandsAfter branch transition [.passed candidate]))
      (applyOperationCheckedWithIntent env branch op transition candidate intent).run w := by
  have hnone : ∀ e, LandsAfter branch transition [.passed candidate] (.error e) [] :=
    fun e => nil_suffix
  refine sat_bind_seen (sat_typeCheck hpass) ?_ ?_
  · intro passed events w₁ hevents hgrew
    cases passed with
    | false =>
      subst hevents
      refine sat_attempt (sat_putAttestations _) fun result w₂ h₂ => ?_
      exact ⟨[], h₂, hnone .typeError⟩
    | true =>
      subst hevents
      have hrest : ∀ e, LandsAfter branch transition [.passed candidate] (.error e)
          ([] ++ [Event.passed candidate]) := fun e => suffix_rfl
      refine sat_then_seen (sat_query.mono fun _ _ h => h.1) ?_ hrest
      intro _ w₂ h₂
      refine sat_then_seen (sat_recordIntent intent) ?_ hrest
      intro _ w₃ h₃
      refine (casRetryAdvance_sat ?_ ?_).mono fun result w₄ h => ?_
      · intro record w
        refine sat_bind_unseen (sat_putAttestations _) ?_ fun _ _ h => h
        exact fun _ _ h => (sat_gate _ _ _).mono fun _ _ h' => h.trans h'
      · intro parent record filed _ hproduces
        rw [h₃.own_eq, h₂.own_eq, hgrew.2]
        exact hland parent record filed hproduces
      · obtain ⟨more, hgrew', hshape⟩ := h.seen
        exact ⟨more, hgrew', hshape.append⟩
  · intro e events hevents
    subst hevents
    exact hnone e

end Checked

/-! ## Planned calls -/

/-- **How a call ends that plans from the branch's head map**: seen planning, passing the type check
with the head map its own transition leaves, and landing; or seen doing no more than the first two. -/
def PlannedLanding (branch : BranchName) (result : Except StoreError OpId) (events : List Event) :
    Prop :=
  match result with
  | .ok id => ∃ head map parent record filed, record.opId = id ∧
      events = [.landed branch parent record filed,
        .passed (applyTransition map record.produces), .planned branch head map]
  | .error _ => ∃ head map candidate, events <:+ [.passed candidate, .planned branch head map]

/-- What is asked of the guard for a planned call. -/
structure MayPlan (G : ι → List Event → Event → Prop) (i : ι) (branch : BranchName)
    (older : List Event) : Prop where
  plan : ∀ head map, G i older (.planned branch head map)
  pass : ∀ head map candidate, G i (.planned branch head map :: older) (.passed candidate)
  land : ∀ head map parent record filed,
    G i (.passed (applyTransition map record.produces) :: .planned branch head map :: older)
      (.landed branch parent record filed)

section Planned

variable {intent : Option Intent}

variable (hmay : MayPlan G i branch (own i w.trace))
include hmay

/-- The gated write path after a plan, with the candidate that the plan gives. -/
theorem sat_checkPlanned {head : Option OpId} {map : HeadMap}
    {candidate : HeadMap} (hcandidate : candidate = applyTransition map transition)
    (hgrew : Grew i [.planned branch head map] w w') : Sat (spec env G) i
      (Seen i w' (LandsAfter branch transition [.passed (applyTransition map transition)]))
      (applyOperationCheckedWithIntent env branch op transition candidate intent).run w' := by
  subst hcandidate
  refine sat_applyOperationChecked ?_ ?_
  · rw [hgrew.2]
    exact hmay.pass head map _
  · intro parent record filed hproduces
    rw [hgrew.2, ← hproduces]
    exact hmay.land head map parent record filed

/-- **Plan, then check**: `f` is the gated write path behind reads that are not seen. -/
theorem sat_planned {f : HeadMap → StoreProg OpId}
    (hf : ∀ head map w', Grew i [.planned branch head map] w w' → ∃ transition, Sat (spec env G) i
        (Seen i w' (LandsAfter branch transition [.passed (applyTransition map transition)])) (f map).run w') :
    Sat (spec env G) i (Seen i w (PlannedLanding branch)) (planFrom branch >>= f).run w := by
  refine sat_bind_seen (sat_planFrom hmay.plan) ?_ ?_
  · rintro map events w' ⟨head, rfl⟩ hgrew
    obtain ⟨transition, hsat⟩ := hf head map w' hgrew
    refine hsat.mono fun result w'' h => ?_
    obtain ⟨more, hmore, h⟩ := h
    refine ⟨more, hmore, ?_⟩
    cases result with
    | ok id =>
      obtain ⟨parent, record, filed, hid, rfl, rfl⟩ := h
      exact ⟨head, map, parent, record, filed, hid, rfl⟩
    | error e =>
      obtain ⟨newer, hnewer⟩ := h
      refine ⟨head, map, applyTransition map transition, newer, ?_⟩
      rw [← append_assoc, hnewer]
      rfl
  · rintro e events rfl
    exact ⟨none, ∅, ∅, nil_suffix⟩

omit hmay in
theorem plannedLanding_nil (e : StoreError) : PlannedLanding branch (.error e) [] :=
  ⟨none, ∅, ∅, nil_suffix⟩

theorem sat_planAndApply {plan : HeadMap → Operation × StageTransition} :
    Sat (spec env G) i (Seen i w (PlannedLanding branch)) (planAndApply env branch plan intent).run w :=
  sat_planned hmay fun _ map _ hgrew => ⟨(plan map).2, sat_checkPlanned hmay rfl hgrew⟩

theorem sat_applyOperationGated : Sat (spec env G) i (Seen i w (PlannedLanding branch))
      (applyOperationGatedWithIntent env branch op transition intent).run w := by
  -- the candidate is loaded between the plan and the check
  have hsplit : applyOperationGatedWithIntent env branch op transition intent =
      (planFrom branch >>= fun head => do
        query fun store => store.loadProgram (applyTransition head transition)
        applyOperationCheckedWithIntent env branch op transition (applyTransition head transition)
          intent) := by
    unfold applyOperationGatedWithIntent candidateProgramFor
    simp only [bind_assoc, pure_bind]
  rw [hsplit]
  refine sat_planned hmay fun head map w' hgrew => ⟨transition, ?_⟩
  refine sat_then_seen (sat_query.mono fun _ _ h => h.1) ?_ fun e => nil_suffix
  intro _ w'' hgrew'
  exact sat_checkPlanned hmay rfl (by simpa using hgrew.trans hgrew')

theorem sat_applyTransform {name : String} {kind : OperationKind} {fromStageId toStageId : StageId} {sigId : SigId} :
    Sat (spec env G) i (Seen i w (PlannedLanding branch))
      (applyTransform env name kind branch fromStageId sigId toStageId intent).run w := by
  refine sat_then_seen (sat_query.mono fun _ _ h => h.1) ?_ plannedLanding_nil
  intro _ w₁ h₁
  refine sat_then_seen (sat_publishStage sigId toStageId) ?_ plannedLanding_nil
  intro _ w₂ h₂
  have hown : own i w₂.trace = own i w.trace := by rw [h₂.own_eq, h₁.own_eq]
  have hrest : Sat (spec env G) i (Seen i w₂ (PlannedLanding branch))
      (planFrom branch >>= fun head => do
        query fun store => store.loadOthers head sigId
        if ¬ head.contains sigId then
          throw (.invalidTransition ("sig `" ++ sigId ++ "` not on branch `" ++ branch ++ "`'s head"))
        let headNow ← readHead branch
        applyOperationCheckedWithIntent env branch
          (stampIntent (.new kind headNow.toList) (intent.map Intent.intentId))
          (.replace sigId fromStageId toStageId) (head.insert sigId toStageId) intent).run w₂ := by
    refine sat_planned (hown ▸ hmay) fun head map w₃ h₃ => ?_
    refine ⟨.replace sigId fromStageId toStageId, ?_⟩
    refine sat_then_seen (sat_query.mono fun _ _ h => h.1) ?_ fun e => nil_suffix
    intro _ w₄ h₄
    have hnow : Sat (spec env G) i
        (Seen i w₄ (LandsAfter branch (.replace sigId fromStageId toStageId)
          [.passed (map.insert sigId toStageId)]))
        (readHead branch >>= fun headNow =>
          applyOperationCheckedWithIntent env branch
            (stampIntent (.new kind headNow.toList) (intent.map Intent.intentId))
            (.replace sigId fromStageId toStageId) (map.insert sigId toStageId) intent).run w₄ := by
      refine sat_then_seen (sat_readHead.mono fun _ _ h => h.1) ?_ fun e => nil_suffix
      intro headNow w₅ h₅
      exact sat_checkPlanned (hown ▸ hmay) rfl (by simpa using (h₃.trans h₄).trans h₅)
    split
    · exact sat_throw_seen nil_suffix
    · exact hnow
  split
  · exact sat_throw_seen (plannedLanding_nil _)
  · exact hrest

theorem sat_promoteCandidate {candidateOpId : OpId} {budgetOf : StageId → Option UInt64} : Sat (spec env G) i (Seen i w (PlannedLanding branch))
      (promoteCandidate env branch candidateOpId budgetOf).run w := by
  refine sat_then_seen (sat_query.mono fun _ _ h => h.1) ?_ plannedLanding_nil
  rintro ⟨sigId, winner⟩ w₁ h₁
  refine sat_then_seen (sat_query.mono fun _ _ h => h.1) ?_ plannedLanding_nil
  intro live w₂ h₂
  have hown : own i w₂.trace = own i w.trace := by rw [h₂.own_eq, h₁.own_eq]
  refine sat_planned (hown ▸ hmay) fun head map w₃ h₃ => ?_
  constructor
  refine sat_then_seen (sat_query.mono fun _ _ h => h.1) ?_ fun e => nil_suffix
  intro _ w₄ h₄
  refine sat_then_seen (sat_query.mono fun _ _ h => h.1) ?_ fun e => nil_suffix
  intro _ w₅ h₅
  refine sat_then_seen (sat_readHead.mono fun _ _ h => h.1) ?_ fun e => nil_suffix
  intro headNow w₆ h₆
  -- with or without a stage before, the winner is what the sig is bound to
  exact sat_checkPlanned (hown ▸ hmay) (by cases map[sigId]? <;> rfl)
    (by simpa using ((h₃.trans h₄).trans h₅).trans h₆)

end Planned

/-! ## Setting a head without comparing -/

/-- **`setBranchHeadOp`**: seen as its note says, or as lost. -/
theorem sat_setBranchHeadOp {head : OpId} {note : Store → Event} {lost : Option Event}
    (hhead : w.state.log.get head ≠ none)
    (hmoves : ∀ store, (note store).moves = some (branch, some head))
    (hholds : ∀ store : Store, w.state.log.Le store.log → store.WellFormed env.digest →
      (note store).Promised → (note store).Holds env store)
    (hlost : ∀ event, lost = some event → event.moves = none ∧ ∀ store, event.Holds env store)
    (hG : ∀ store, G i (own i w.trace) (note store))
    (hGlost : ∀ event, lost = some event → G i (own i w.trace) event) :
    Sat (spec env G) i
      (Seen i w fun result events =>
        match result with
        | .ok () => ∃ store, events = [note store]
        | .error _ => events = lost.toList)
      (setBranchHeadOp branch head note lost).run w := by
  have hmovesLost : lost.bind Event.moves = none := by
    cases lost with
    | none => rfl
    | some event => exact (hlost event rfl).1
  have hread : Sat (spec env G) i
      (fun result w' =>
        match result with
        | .ok (_ : Branch) => Grew i [] w w'
        | .error _ => Seen i w (fun (_ : Except StoreError Branch) events =>
          events = lost.toList) result w')
      (readBranchToAdvance branch lost).run w := by
    refine sat_atom fun w' hgrew hwf ok _ => ?_
    cases ok with
    | false =>
      refine ⟨.still hwf hmovesLost fun event h => (hlost event h).2 _, hGlost, ?_⟩
      exact fun w'' hgrew' _ => ⟨_, hgrew', rfl⟩
    | true =>
      cases hfile : w'.state.branchToAdvance branch with
      | some file =>
        simp only [hfile]
        exact ⟨.still hwf rfl of_unseen, of_unseen, fun w'' hgrew' _ => hgrew'⟩
      | none =>
        simp only [hfile]
        refine ⟨.still hwf hmovesLost fun event h => (hlost event h).2 _, hGlost, ?_⟩
        exact fun w'' hgrew' _ => ⟨_, hgrew', rfl⟩
  refine sat_bind hread ?_ fun e w' h => h
  intro file w₁ h₁
  refine (?_ : Sat (spec env G) i (Seen i w₁ fun result events =>
    match result with
    | .ok () => ∃ store, events = [note store]
    | .error _ => events = lost.toList) _ w₁).mono fun result w₂ h => h.after_unseen h₁
  refine sat_atom fun w₂ h₂ hwf ok hpromised => ?_
  have hle : w.state.log.Le w₂.state.log := h₁.1.trans h₂.1
  rw [h₁.own_eq]
  cases ok with
  | false =>
    refine ⟨.still hwf hmovesLost fun event h => (hlost event h).2 _, hGlost, ?_⟩
    exact fun w'' hgrew' _ => ⟨_, hgrew', rfl⟩
  | true =>
    refine ⟨.writeBranch hwf (hmoves _) ?_ ?_, ?_, ?_⟩
    · intro id hid
      rw [← Option.some.inj hid]
      exact hle.get_ne_none hhead
    · exact hholds _ hle hwf (hpromised _ rfl)
    · intro event hevent
      rw [← Option.some.inj hevent]
      exact hG _
    · exact fun w'' hgrew' _ => ⟨_, hgrew', _, rfl⟩

/-- **A rollback**: seen going back to `headBefore`, or as lost; not seen when there is nothing to go
back to. -/
theorem sat_rollBack {headBefore : Option OpId} (hlogged : Logged w.state.log headBefore)
    (hG : ∀ found target, headBefore = some target →
      G i (own i w.trace) (.rolledBack branch found target))
    (hGlost : G i (own i w.trace) (.rollbackLost branch)) :
    Sat (spec env G) i
      (Seen i w fun result events =>
        match headBefore, result with
        | some prev, .ok () => ∃ found, events = [.rolledBack branch found prev]
        | some _, .error _ => events = [.rollbackLost branch]
        | none, _ => events = [])
      (rollBack branch headBefore).run w := by
  cases headBefore with
  | none => exact ⟨[], Grew.refl i w, rfl⟩
  | some prev =>
    refine (sat_setBranchHeadOp (hlogged prev rfl) (fun _ => rfl) ?_ ?_ ?_ ?_).mono
      fun result w' h => ?_
    · intro store hle _ _
      exact ⟨rfl, hle.get_ne_none (hlogged prev rfl)⟩
    · intro event hevent
      rw [← Option.some.inj hevent]
      exact ⟨rfl, fun _ => trivial⟩
    · exact fun store => hG _ _ rfl
    · intro event hevent
      rw [← Option.some.inj hevent]
      exact hGlost
    obtain ⟨events, hgrew, hshape⟩ := h
    refine ⟨events, hgrew, ?_⟩
    cases result with
    | ok u =>
      obtain ⟨store, rfl⟩ := hshape
      exact ⟨_, rfl⟩
    | error e => exact hshape

/-! ## The gated landing of a merge -/

/-- The events of a verdict: the head map that was judged, and that it passed. -/
theorem sat_judgeMerge (hjudge : ∀ head map, G i (own i w.trace) (.judged branch head map))
    (hpass : ∀ head map, G i (.judged branch head map :: own i w.trace) (.passed map)) :
    Sat (spec env G) i
      (Seen i w fun result events =>
        match result with
        | .ok () => ∃ head map, events = [.passed map, .judged branch head map]
        | .error _ => events = [] ∨ ∃ head map, events = [.judged branch head map])
      (judgeMerge env branch).run w := by
  refine sat_then_seen (sat_update (fun _ => rfl) (fun _ _ => rfl) fun _ => rfl) ?_ fun e => .inl rfl
  intro _ w₁ h₁
  rw [← h₁.own_eq] at hjudge hpass
  have hread : Sat (spec env G) i
      (Seen i w₁ fun result events =>
        match result with
        | .ok map => ∃ head, events = [.judged branch head map]
        | .error _ => events = [])
      (readHeadMap branch fun head map => some (.judged branch head map)).run w₁ := by
    refine (sat_readHeadMap (fun _ _ => rfl) ?_ ?_).mono ?_
    · intro store event hevent
      rw [← Option.some.inj hevent]
      exact ⟨rfl, rfl⟩
    · intro head map event hevent
      rw [← Option.some.inj hevent]
      exact hjudge head map
    · intro result w' h
      cases result with
      | ok map =>
        obtain ⟨head, hgrew, _⟩ := h
        exact ⟨_, hgrew, head, rfl⟩
      | error e => exact ⟨_, h, rfl⟩
  refine sat_bind_seen hread ?_ fun e events h => .inl h
  rintro map events w₂ ⟨head, rfl⟩ h₂
  refine sat_then_seen (sat_query.mono fun _ _ h => h.1) ?_ fun e => .inr ⟨head, map, rfl⟩
  intro _ w₃ h₃
  have hpass' : G i (own i w₃.trace) (.passed map) := by
    rw [h₃.own_eq, h₂.2]
    exact hpass head map
  refine sat_bind_seen (sat_typeCheck hpass') ?_ ?_
  · intro passed events w₄ hevents _
    cases passed with
    | false =>
      subst hevents
      exact sat_throw_seen (.inr ⟨head, map, rfl⟩)
    | true =>
      subst hevents
      exact sat_pure_seen ⟨head, map, rfl⟩
  · rintro e events rfl
    exact .inr ⟨head, map, rfl⟩

/-- What a merge that landed and was refused is seen doing next: writing the head back that it had
read, or losing the rollback; nothing, when there was no head. -/
def GoesBack (branch : BranchName) : Option OpId → List Event → Prop
  | some prev, back => (∃ found, back = [.rolledBack branch found prev]) ∨
      back = [.rollbackLost branch]
  | none, back => back = []

/-- What a merge has seen of its verdict when it is refused. -/
def Refused (branch : BranchName) (verdict : List Event) : Prop :=
  verdict = [] ∨ ∃ judged map, verdict = [.judged branch judged map]

/-- **What a gated merge is seen doing**, all of it or the first part. -/
inductive MergeTrail (branch : BranchName) : List Event → Prop
  | nothing : MergeTrail branch []
  | begun (head : Option OpId) : MergeTrail branch [.merging branch head]
  | settled (head parent : Option OpId) (record filed : OperationRecord) (judged : Option OpId)
      (map : HeadMap) :
      MergeTrail branch [.passed map, .judged branch judged map,
        .landed branch parent record filed, .merging branch head]
  | refused (head parent : Option OpId) (record filed : OperationRecord) (verdict back : List Event)
      (hverdict : Refused branch verdict) (hback : GoesBack branch head back) :
      MergeTrail branch
        (back ++ verdict ++ [.landed branch parent record filed, .merging branch head])

/-- How a gated merge ends. -/
def MergeEnd (branch : BranchName) (result : Except StoreError OpId) (events : List Event) : Prop :=
  match result with
  | .ok id => ∃ head parent record filed judged map, record.opId = id ∧
      events = [.passed map, .judged branch judged map, .landed branch parent record filed,
        .merging branch head]
  | .error _ => MergeTrail branch events

/-- What is asked of the guard for a gated merge, step by step. -/
structure MayMerge (G : ι → List Event → Event → Prop) (i : ι) (branch : BranchName)
    (op : Operation) (transition : StageTransition) (older : List Event) : Prop where
  begin : ∀ head, G i older (.merging branch head)
  land : ∀ head parent record filed, Variant op record.op → record.produces = transition →
    G i (.merging branch head :: older) (.landed branch parent record filed)
  judge : ∀ head parent record filed judged map,
    G i (.landed branch parent record filed :: .merging branch head :: older)
      (.judged branch judged map)
  pass : ∀ head parent record filed judged map,
    G i (.judged branch judged map :: .landed branch parent record filed ::
      .merging branch head :: older) (.passed map)
  back : ∀ target parent record filed verdict found, Refused branch verdict →
    G i (verdict ++ .landed branch parent record filed :: .merging branch (some target) :: older)
      (.rolledBack branch found target)
  lost : ∀ head parent record filed verdict, Refused branch verdict →
    G i (verdict ++ .landed branch parent record filed :: .merging branch head :: older)
      (.rollbackLost branch)

theorem sat_mergeAttestable (transition : StageTransition) :
    Sat (spec env G) i (fun _ w' => Grew i [] w w') (mergeAttestable branch transition).run w := by
  cases transition with
  | merge entries =>
    have hread : Sat (spec env G) i (fun _ w' => Grew i [] w w')
        (readHeadMap branch fun _ _ => none).run w := by
      refine (sat_readHeadMap (fun _ _ => rfl) (fun _ => of_unseen) fun _ _ => of_unseen).mono ?_
      intro result w' h
      cases result with
      | ok map => exact h.choose_spec.1
      | error e => exact h
    exact sat_bind_unseen hread (fun _ _ h => h) fun _ _ h => h
  | _ => exact Grew.refl i w

/-- **The gated write path of merges.** -/
theorem sat_applyMergeOpGated
    (hmay : MayMerge G i branch op transition (own i w.trace)) : Sat (spec env G) i (Seen i w (MergeEnd branch))
      (applyMergeOpGated env branch op transition).run w := by
  refine sat_bind (sat_readHeadToMerge hmay.begin) ?_ fun e w' h => .of_unseen h .nothing
  rintro headBefore w₁ ⟨h₁, hlogged⟩
  refine (?_ : Sat (spec env G) i (Seen i w₁ fun result more =>
    MergeEnd branch result (more ++ [Event.merging branch headBefore])) _ w₁).mono
      fun _ _ h => h.after h₁
  refine sat_then_seen (sat_mergeAttestable transition) ?_ fun e => .begun headBefore
  intro attestable w₂ h₂
  refine sat_then_seen (sat_query.mono fun _ _ h => h.1) ?_ fun e => .begun headBefore
  intro _ w₃ h₃
  have hown₃ : own i w₃.trace = .merging branch headBefore :: own i w.trace := by
    rw [h₃.own_eq, h₂.own_eq, h₁.2]
    rfl
  refine sat_bind (applyOperationAttesting_sat attestable ?_) ?_ ?_
  · intro parent record filed hvariant hproduces
    rw [hown₃]
    exact hmay.land headBefore parent record filed hvariant hproduces
  · rintro opId w₄ ⟨parent, record, filed, hid, hvariant, hproduces, h₄⟩
    have hown₄ : own i w₄.trace =
        .landed branch parent record filed :: .merging branch headBefore :: own i w.trace := by
      rw [h₄.2, hown₃]
      rfl
    refine sat_attempt (sat_judgeMerge ?_ ?_) ?_
    · intro head map
      rw [hown₄]
      exact hmay.judge headBefore parent record filed head map
    · intro head map
      rw [hown₄]
      exact hmay.pass headBefore parent record filed head map
    · rintro verdict w₅ ⟨seen, h₅, hseen⟩
      have hgrew₅ := h₄.trans h₅
      refine (?_ : Sat (spec env G) i (Seen i w₅ fun result more => MergeEnd branch result
        (more ++ (seen ++ [Event.landed branch parent record filed]) ++ [Event.merging branch headBefore]))
          _ w₅).mono fun _ _ h => h.after hgrew₅
      have hown₅ : own i w₅.trace = seen ++
          Event.landed branch parent record filed :: .merging branch headBefore :: own i w.trace := by
        rw [h₅.2, hown₄]
      cases verdict with
      | error e =>
        have hverdict : Refused branch seen := hseen
        have hlogged₅ : Logged w₅.state.log headBefore :=
          (((hlogged.le h₂.1).le h₃.1).le h₄.1).le h₅.1
        have hrefused : ∀ back, GoesBack branch headBefore back → MergeTrail branch
            (back ++ (seen ++ [Event.landed branch parent record filed]) ++
              [Event.merging branch headBefore]) := by
          intro back hback
          have htrail := MergeTrail.refused headBefore parent record filed seen back hverdict hback
          simpa using htrail
        refine sat_bind_seen (sat_rollBack hlogged₅ ?_ ?_) ?_ ?_
        · intro found target htarget
          rw [hown₅, htarget]
          exact hmay.back target parent record filed seen found hverdict
        · rw [hown₅]
          exact hmay.lost headBefore parent record filed seen hverdict
        · intro _ back w₆ hback _
          refine sat_throw_seen (hrefused back ?_)
          cases headBefore with
          | none => exact hback
          | some prev => exact .inl hback
        · intro e back hback
          refine hrefused back ?_
          cases headBefore with
          | none => exact hback
          | some prev => exact .inr hback
      | ok u =>
        obtain ⟨judged, map, rfl⟩ := hseen
        refine sat_then_seen (sat_putAttestations _) ?_ ?_
        · intro _ w₆ h₆
          exact sat_pure_seen ⟨headBefore, parent, record, filed, judged, map, hid, rfl⟩
        · exact fun e => .settled headBefore parent record filed judged map
  · intro e w₄ h
    exact .of_unseen h (.begun headBefore)

/-! ## Committing a reported merge -/

/-- Nothing is claimed about how a program ends. -/
abbrev Anyhow (_ : Except StoreError ρ) (_ : List Event) : Prop := True

theorem sat_journalMerge {report : MergeReport}
    (hG : ∀ found written, G i (own i w.trace) (.journaled branch found written)) :
    Sat (spec env G) i (Seen i w Anyhow) (journalMerge branch report).run w := by
  refine sat_bind (show Sat (spec env G) i (fun result w' => Grew i [] w w' ∧
      ∀ file, result = .ok file → Logged w'.state.log (Branch.headOp file)) _ w from
    sat_query.mono fun result w' h => ⟨h.1, fun file hfile => ?_⟩) ?_ fun e w' h => .of_unseen h.1 trivial
  · obtain ⟨hwf, hget⟩ := h.2 file hfile
    split at hget
    · rename_i file' hbranch
      rw [← Except.ok.inj hget, ← Store.headOp_of_getBranch hbranch]
      exact hwf.logged branch
    · cases hget
  intro file w₁ h₁
  refine (?_ : Sat (spec env G) i (Seen i w₁ Anyhow) _ w₁).mono fun _ _ h => h.after h₁.1
  split
  · refine sat_atom fun w₂ h₂ hwf ok _ => ?_
    rw [h₁.1.own_eq]
    cases ok with
    | false => exact ⟨.still hwf rfl of_unseen, of_unseen, fun w'' hgrew _ => ⟨_, hgrew, trivial⟩⟩
    | true =>
      refine ⟨.writeBranch hwf rfl ?_ rfl, ?_, ?_⟩
      · exact fun id hid => ((h₁.2 file rfl).le h₂.1) id hid
      · intro event hevent
        rw [← Option.some.inj hevent]
        exact hG _ _
      · exact fun w'' hgrew _ => ⟨_, hgrew, trivial⟩
  · exact sat_pure_seen trivial

/-- What is asked of the guard for a commit. -/
structure MayCommit (G : ι → List Event → Event → Prop) (i : ι) (dst : BranchName)
    (report : MergeReport) (older : List Event) : Prop where
  merge : report.conflicts = [] → ∀ dstMap s d, s ≠ d → MayMerge G i dst
    (.new (.merge (mergeEntries dstMap report).size) [d, s]) (.merge (mergeEntries dstMap report))
      older
  push : ∀ head store, G i older (pushedTo dst none head store)
  journal : ∀ newer found written, G i (newer ++ older) (.journaled dst found written)

/-- **The commit of a reported merge.** -/
theorem sat_commitMerge {report : MergeReport} (hmay : MayCommit G i branch report (own i w.trace)) :
    Sat (spec env G) i (Seen i w Anyhow) (commitMerge env branch report).run w := by
  have hjournal : ∀ events w', Grew i events w w' →
      Sat (spec env G) i (Seen i w' Anyhow) (journalMerge branch report).run w' := by
    intro events w' hgrew
    refine sat_journalMerge fun found written => ?_
    rw [hgrew.2]
    exact hmay.journal events found written
  unfold commitMerge
  split
  · exact sat_throw_seen trivial
  · rename_i hconflicts
    have hread : Sat (spec env G) i (fun _ w' => Grew i [] w w')
        (readHeadMap branch fun _ _ => none).run w := by
      refine (sat_readHeadMap (fun _ _ => rfl) (fun _ => of_unseen) fun _ _ => of_unseen).mono ?_
      intro result w' h
      cases result with
      | ok map => exact h.choose_spec.1
      | error e => exact h
    refine sat_then_seen hread ?_ fun e => trivial
    intro dstMap w₁ h₁
    refine sat_bind sat_readHead ?_ fun e w' h => .of_unseen h.1 trivial
    intro srcHead w₂ h₂
    refine sat_bind sat_readHead ?_ fun e w' h => .of_unseen (h₂.1.trans h.1) trivial
    intro dstHead w₃ h₃
    have hgrew : Grew i [] w w₃ := (h₁.trans h₂.1).trans h₃.1
    refine (?_ : Sat (spec env G) i (Seen i w₃ Anyhow) _ w₃).mono
      fun _ _ h => h.after (h₂.1.trans h₃.1)
    cases srcHead with
    | none => exact hjournal [] w₃ hgrew
    | some s =>
      cases dstHead with
      | none =>
        -- adopt the source's head
        have hlogged := ((h₂.2 (some s) rfl).le h₃.1.1) s rfl
        refine sat_bind_seen (sat_setBranchHeadOp hlogged (fun _ => rfl) ?_ of_unseen ?_ of_unseen)
          ?_ fun e events _ => trivial
        · intro store _ _ _
          exact ⟨rfl, rfl, fun cur hcur => by cases hcur⟩
        · intro store
          rw [hgrew.own_eq]
          exact hmay.push s store
        · intro _ events w₄ _ h₄
          exact hjournal _ w₄ (hgrew.trans h₄)
      | some d =>
        simp only
        split
        · exact hjournal [] w₃ hgrew
        · rename_i hne
          have hmerge := hmay.merge (not_not.mp hconflicts) dstMap s d hne
          rw [← hgrew.own_eq] at hmerge
          refine sat_bind_seen (sat_applyMergeOpGated hmerge) ?_ fun e events _ => trivial
          intro _ events w₄ _ h₄
          exact hjournal _ w₄ (hgrew.trans h₄)

end Rules

end LexLang
