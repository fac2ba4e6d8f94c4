/-
# LexLang.Store.Landing — the rules of the write paths

`casRetryAdvance_sat` is the rule of the retry loop: however often it retries, it lands the caller's
transition once, under an id that is in the log, on the head that the swap found; or it is not seen
at all.
-/
import LexLang.Store.Observe

namespace LexLang

open LexLang.Vcs LexLang.Concurrent
open List Option

/-! ## The parents rule -/

variable {parent : Option OpId} {record : OperationRecord}

section Parents

variable {log : OpLog} {head : Option OpId} {parents : List OpId}

theorem checkParents_toList (h : checkParents log head parents = .ok ())
    (hlength : parents.length ≤ 1) : parents = head.toList := by
  unfold checkParents at h
  split at h
  · rfl
  · split at h
    · rename_i heq
      rw [heq]
      rfl
    · cases h
  · simp at hlength
  · cases h

theorem checkParents_mem (h : checkParents log head parents = .ok ()) {parent : OpId}
    (hhead : head = some parent) : parent ∈ parents := by
  subst hhead
  unfold checkParents at h
  split at h
  · rename_i hnone
    cases hnone
  · rename_i heq
    cases heq
    split at h
    · rename_i heq
      rw [heq]
      exact mem_cons_self
    · cases h
  · rename_i p q hd heq
    cases heq
    split at h
    · cases h
    · split at h
      · cases h
      · rename_i hneither
        rw [not_and_or, not_not, not_not] at hneither
        rcases hneither with rfl | rfl
        · exact mem_cons_self
        · exact mem_cons_of_mem _ mem_cons_self
  · cases h

theorem checkParents_none (h : checkParents log none parents = .ok ()) : parents = [] := by
  unfold checkParents at h
  split at h
  · rfl
  · rename_i heq
    cases heq
  · rename_i heq
    cases heq
  · cases h

theorem checkParents_logged (h : checkParents log head parents = .ok ())
    (hhead : ∀ parent, head = some parent → log.get parent ≠ none) : ∀ p ∈ parents, log.get p ≠ none := by
  unfold checkParents at h
  split at h
  · simp
  · split at h
    · rename_i heq
      intro p hp
      rw [mem_singleton.mp hp, heq]
      exact hhead _ rfl
    · cases h
  · rename_i p q hd
    split at h
    · cases h
    · split at h
      · cases h
      · rename_i hneither
        rw [not_and_or, not_not, not_not] at hneither
        have hother : log.get (if p = hd then q else p) ≠ none := by
          intro hnone
          simp [hnone] at h
        intro x hx
        rw [mem_cons, mem_singleton] at hx
        by_cases hxh : x = hd
        · rw [hxh]
          exact hhead _ rfl
        · rcases hneither with rfl | rfl
          · rw [if_pos rfl] at hother
            rcases hx with rfl | rfl
            · exact absurd rfl hxh
            · exact hother
          · rcases hx with rfl | rfl
            · rw [if_neg hxh] at hother
              exact hother
            · exact absurd rfl hxh
  · cases h

variable {filed : OperationRecord}

theorem mem_parents_of_hashed {digest : Digest} (hhashed : log.Hashed digest)
    (hfiled : log.get record.opId = some filed) (hrecord : record.op.opId digest = record.opId) {p : OpId} :
    p ∈ filed.op.parents ↔ p ∈ record.op.parents := by
  have hsame : filed.op.opId digest = record.op.opId digest :=
    (hhashed record.opId filed hfiled).trans hrecord.symm
  obtain ⟨_, hparents, _⟩ := (opId_eq_iff digest _ _).mp hsame
  rw [← mem_sortedSet, hparents, mem_sortedSet]

/-- **A landed operation is on top of the head it landed on.** -/
theorem landed_edge {env : Env} {store : Store} (hwf : store.WellFormed env.digest) {branch : BranchName}
    (h : Event.Holds env store (.landed branch parent record filed)) {p : OpId}
    (hparent : parent = some p) : Graph.Edge store.log.parentsOf record.opId p := by
  obtain ⟨_, hfiled, hrecord, _, hcheck⟩ := h
  refine OpLog.edge_iff.mpr ⟨filed, hfiled, ?_⟩
  exact (mem_parents_of_hashed hwf.hashed hfiled hrecord).mpr (checkParents_mem hcheck hparent)

/-- **An operation with at most one parent gives the head map it was landed on, moved by the filed
transition.** -/
theorem replay_of_landed {env : Env} {store : Store} (hwf : store.WellFormed env.digest) {branch : BranchName}
    (h : Event.Holds env store (.landed branch parent record filed)) (hlength : filed.op.parents.length ≤ 1) :
    store.log.replay record.opId = applyTransition (store.log.replayHead parent) filed.produces := by
  obtain ⟨_, hfiled, hrecord, _, hcheck⟩ := h
  have hmem : ∀ {p}, p ∈ filed.op.parents ↔ p ∈ record.op.parents :=
    mem_parents_of_hashed hwf.hashed hfiled hrecord
  have hparents : filed.op.parents = parent.toList := by
    cases parent with
    | none =>
      refine eq_nil_iff_forall_not_mem.mpr fun p hp => ?_
      rw [hmem, checkParents_none hcheck] at hp
      cases hp
    | some p =>
      have hp : p ∈ filed.op.parents := hmem.mpr (checkParents_mem hcheck rfl)
      match hlist : filed.op.parents, hlength with
      | [], _ => simp [hlist] at hp
      | [q], _ => simpa [hlist, eq_comm] using hp
  exact OpLog.replay_of_toList hwf.acyclic hfiled fun p => by rw [hparents]

end Parents

/-! ## Heads and attestations -/

/-- A head, if there is one, is logged. -/
def Logged (log : OpLog) (head : Option OpId) : Prop := ∀ id, head = some id → log.get id ≠ none

theorem Logged.le {log log' : OpLog} {head : Option OpId} (h : Logged log head)
    (hle : log.Le log') : Logged log' head := fun id hid => hle.get_ne_none (h id hid)

theorem replayHead_of_le (hclosed : log.Closed) (hle : log.Le log') {head : Option OpId}
    (hhead : Logged log head) : log'.replayHead head = log.replayHead head := by
  cases head with
  | none => rfl
  | some id => exact OpLog.replay_of_le hclosed hle (hhead id rfl)

theorem Store.WellFormed.logged {digest : Digest} {store : Store} (h : store.WellFormed digest)
    (branch : BranchName) : Logged store.log (store.headOp branch) :=
  fun id hid => h.heads branch id hid

section Rules

variable {ι : Type} [DecidableEq ι] {env : Env} {G : ι → List Event → Event → Prop} {i : ι}
  {w : World ι Store Event} {branch : BranchName}

theorem sat_readHead : Sat (spec env G) i
      (fun result w' => Grew i [] w w' ∧ ∀ head, result = .ok head → Logged w'.state.log head)
      (readHead branch).run w :=
  sat_query.mono fun result w' h => ⟨h.1, fun head hhead => by
    obtain ⟨hwf, hread⟩ := h.2 head hhead
    rw [← Except.ok.inj hread]
    exact hwf.logged branch⟩

theorem sat_readHeadToMerge (hG : ∀ head, G i (own i w.trace) (.merging branch head)) :
    Sat (spec env G) i
      (fun result w' =>
        match result with
        | .ok head => Grew i [.merging branch head] w w' ∧ Logged w'.state.log head
        | .error _ => Grew i [] w w')
      (readHeadToMerge branch).run w := by
  refine sat_atom fun w' hgrew hwf ok _ => ?_
  cases ok with
  | false => exact ⟨.still hwf rfl of_unseen, of_unseen, fun w'' hgrew' _ => hgrew'⟩
  | true =>
    refine ⟨.still hwf rfl ?_, ?_, ?_⟩
    · intro event hevent
      rw [← some.inj hevent]
      rfl
    · intro event hevent
      rw [← some.inj hevent]
      exact hG _
    · intro w'' hgrew' hstate
      refine ⟨hgrew', ?_⟩
      rw [hstate]
      exact hwf.logged branch

/-- **Reading a head map**: it is the one of the head that is read with it. -/
theorem sat_readHeadMap {note : Option OpId → HeadMap → Option Event}
    (hmoves : ∀ head map, (note head map).bind Event.moves = none)
    (hholds : ∀ store : Store, ∀ event, note (store.headOp branch) (store.headMap branch) = some event →
      event.Holds env store)
    (hG : ∀ head map event, note head map = some event → G i (own i w.trace) event) :
    Sat (spec env G) i
      (fun result w' =>
        match result with
        | .ok map => ∃ head, Grew i (note head map).toList w w' ∧ Logged w'.state.log head ∧
            map = w'.state.log.replayHead head
        | .error _ => Grew i [] w w')
      (readHeadMap branch note).run w := by
  refine sat_atom fun w' hgrew hwf ok _ => ?_
  cases ok with
  | false => exact ⟨.still hwf rfl of_unseen, of_unseen, fun w'' hgrew' _ => hgrew'⟩
  | true =>
    cases hview : w'.state.headView branch with
    | error e =>
      simp only [hview]
      exact ⟨.still hwf rfl of_unseen, of_unseen, fun w'' hgrew' _ => hgrew'⟩
    | ok view =>
      obtain ⟨map, store'⟩ := view
      obtain ⟨rfl, hwf', snapshots, rfl⟩ := hwf.headView hview
      simp only [hview, if_true]
      refine ⟨⟨hwf', OpLog.Le.refl _, fun other => ?_, hholds _⟩, hG _ _, ?_⟩
      · unfold headAfter
        rw [hmoves]
        rfl
      · intro w'' hgrew' hstate
        refine ⟨w'.state.headOp branch, hgrew', ?_, ?_⟩
        · rw [hstate]
          exact hwf.logged branch
        · rw [hstate]
          rfl

/-- The rule of a program that is not seen. -/
theorem sat_bind_unseen {ρ ρ' : Type} {p : StoreProg ρ} {f : ρ → StoreProg ρ'}
    {Q : Except StoreError ρ' → World ι Store Event → Prop}
    (hp : Sat (spec env G) i (fun _ w' => Grew i [] w w') p.run w)
    (hok : ∀ a w', Grew i [] w w' → Sat (spec env G) i Q (f a).run w')
    (herror : ∀ e w', Grew i [] w w' → Q (.error e) w') :
    Sat (spec env G) i Q (p >>= f).run w := sat_bind hp hok herror

theorem sat_putAttestations (stamps : List (Nat → Attestation)) :
    Sat (spec env G) i (fun _ w' => Grew i [] w w') (putAttestations stamps).run w := by
  induction stamps generalizing w with
  | nil => exact Grew.refl i w
  | cons stamp stamps ih =>
    refine sat_bind_unseen (sat_update (fun _ => rfl) (fun _ _ => rfl) fun _ => rfl) ?_
      fun _ _ h => h
    exact fun _ w' h => ih.mono fun _ _ h' => h.trans h'

theorem sat_publishStage (sigId : SigId) (stageId : StageId) :
    Sat (spec env G) i (fun _ w' => Grew i [] w w') (publishStage sigId stageId).run w :=
  sat_update (fun _ => rfl) (fun _ _ => rfl) fun _ => rfl

theorem sat_recordIntent (intent : Option Intent) :
    Sat (spec env G) i (fun _ w' => Grew i [] w w') (recordIntent intent).run w := by
  cases intent with
  | none => exact Grew.refl i w
  | some intent => exact sat_update (fun _ => rfl) (fun _ _ => rfl) fun _ => rfl

theorem sat_gate (opId : OpId) (stageIds : List StageId) (effects : EffectSet) :
    Sat (spec env G) i (fun _ w' => Grew i [] w w') (gate branch opId stageIds effects).run w :=
  sat_bind_unseen (sat_query.mono fun _ _ h => h.1)
    (fun _ _ h => (sat_putAttestations _).mono fun _ _ h' => h.trans h') fun _ _ h => h

/-! ## Persist and swap -/

/-- A record that was applied against `parent`, and is logged. -/
structure Persisted (env : Env) (log : OpLog) (parent : Option OpId) (op : Operation)
    (transition : StageTransition) (record : OperationRecord) : Prop where
  record_eq : record = .new env.digest op transition
  parents : ∃ log, checkParents log parent op.parents = .ok ()
  logged : log.get record.opId ≠ none

variable {transition : StageTransition} {op : Operation}

theorem Persisted.le {log log' : OpLog} (h : Persisted env log parent op transition record) (hle : log.Le log') :
    Persisted env log' parent op transition record :=
  ⟨h.record_eq, h.parents, hle.get_ne_none h.logged⟩

/-- **Persisting** is unseen, and puts the operation in the log. -/
theorem sat_persist (hparent : Logged w.state.log parent) :
    Sat (spec env G) i (fun result w' => Grew i [] w w' ∧ ∀ record, result = .ok record →
        Persisted env w'.state.log parent op transition record)
      (persistOpOnlyWithParent env branch parent op transition).run w := by
  refine sat_atom fun w' hgrew hwf ok _ => ?_
  cases ok with
  | false =>
    exact ⟨.still hwf rfl of_unseen, of_unseen, fun w'' hgrew' _ => ⟨hgrew', fun _ h => by cases h⟩⟩
  | true =>
    simp only [if_true]
    by_cases hexists : branch ≠ defaultBranch ∧ w'.state.getBranch branch = none
    · rw [if_pos hexists]
      exact ⟨.still hwf rfl of_unseen, of_unseen,
        fun w'' hgrew' _ => ⟨hgrew', fun _ h => by cases h⟩⟩
    · rw [if_neg hexists]
      cases happly : apply env.digest w'.state.log parent op transition with
      | error e =>
        exact ⟨.still hwf rfl of_unseen, of_unseen,
          fun w'' hgrew' _ => ⟨hgrew', fun _ h => by cases h⟩⟩
      | ok applied =>
        obtain ⟨record, log⟩ := applied
        obtain ⟨hcheck, hrecord, rfl⟩ := apply_eq_ok env.digest happly
        have hdigest : record.op.opId env.digest = record.opId := by
          rw [hrecord]
          rfl
        have hlogged : ∀ p ∈ record.op.parents, w'.state.log.get p ≠ none := by
          rw [hrecord]
          exact checkParents_logged hcheck (hparent.le hgrew.1)
        have hwf' := hwf.put hdigest hlogged
        refine ⟨⟨hwf', OpLog.le_put _ _, fun _ => rfl, of_unseen⟩, of_unseen, ?_⟩
        intro w'' hgrew' hstate
        refine ⟨hgrew', fun _ h => ?_⟩
        obtain rfl := Except.ok.inj h
        refine ⟨hrecord, ⟨_, hcheck⟩, ?_⟩
        obtain ⟨filed, hfiled⟩ := OpLog.get_put_opId w'.state.log record
        rw [hstate]
        show (w'.state.log.put record).get record.opId ≠ none
        rw [hfiled]
        exact some_ne_none filed

/-- **The swap**: it lands the record on the head it expects, or is not seen. -/
theorem sat_setBranchHeadOpCas (hpersisted : Persisted env w.state.log parent op transition record)
    (hG : ∀ filed, G i (own i w.trace) (.landed branch parent record filed)) :
    Sat (spec env G) i
      (fun result w' =>
        match result with
        | .ok .ok => ∃ filed, Grew i [.landed branch parent record filed] w w'
        | _ => Grew i [] w w')
      (setBranchHeadOpCas branch parent record).run w := by
  refine sat_atom fun w' hgrew hwf ok _ => ?_
  cases ok with
  | false => exact ⟨.still hwf rfl of_unseen, of_unseen, fun w'' hgrew' _ => hgrew'⟩
  | true =>
    simp only [if_true, Bool.true_and]
    cases houtcome : w'.state.casOutcome branch parent with
    | ok =>
      obtain ⟨hhead, file, hfile⟩ : w'.state.headOp branch = parent ∧
          ∃ file, w'.state.branchToAdvance branch = some file := by
        unfold Store.casOutcome at houtcome
        split at houtcome
        · cases houtcome
        · rename_i hhead
          split at houtcome
          · rename_i hsome
            exact ⟨not_not.mp hhead, isSome_iff_exists.mp hsome⟩
          · cases houtcome
      have hwrite : w'.state.casWrite branch parent record.opId =
          w'.state.writeBranch branch (file.advance record.opId) := by
        unfold Store.casWrite
        rw [houtcome, hfile]
      obtain ⟨filed, hfiled⟩ := ne_none_iff_exists'.mp (hpersisted.le hgrew.1).logged
      rw [hwrite, hfiled]
      refine ⟨.writeBranch hwf rfl ?_ ⟨hhead, hfiled, ?_, ?_⟩, ?_, ?_⟩
      · intro head hh
        rw [← some.inj hh, hfiled]
        exact some_ne_none filed
      · rw [hpersisted.record_eq]
        rfl
      · rw [hpersisted.record_eq]
        exact hpersisted.parents
      · intro event hevent
        rw [← some.inj hevent]
        exact hG _
      · exact fun w'' hgrew' _ => ⟨filed, hgrew'⟩
    | mismatch actual | unknownBranch name | io =>
      have hwrite : w'.state.casWrite branch parent record.opId = w'.state := by
        unfold Store.casWrite
        rw [houtcome]
      rw [hwrite]
      exact ⟨.still hwf rfl of_unseen, of_unseen, fun w'' hgrew' _ => hgrew'⟩

/-! ## The retry loop -/

/-- An operation that the loop tries for `op`: the same but for its parents, which are rebuilt only
if `op` has at most one. -/
structure Variant (op tried : Operation) : Prop where
  kind : tried.kind = op.kind
  intentId : tried.intentId = op.intentId
  parents : if Operation.isRebuildable op then tried.parents.length ≤ 1 else tried.parents = op.parents

theorem Variant.refl (op : Operation) : Variant op op where
  kind := rfl
  intentId := rfl
  parents := by
    split
    · rename_i h
      exact of_decide_eq_true h
    · rfl

theorem Variant.rebuild {op tried : Operation} (h : Variant op tried) (parent : Option OpId)
    (rebuiltAlready : Bool) : Variant op (rebuild op tried parent rebuiltAlready) := by
  unfold LexLang.rebuild
  split
  · rename_i hrebuild
    rw [Bool.and_eq_true] at hrebuild
    refine ⟨rfl, rfl, ?_⟩
    rw [if_pos hrebuild.1]
    cases parent with
    | none => exact Nat.zero_le 1
    | some id => exact Nat.le_refl 1
  · exact h

/-- **How a write path ends**: it was seen landing a variant of the operation, or not at all. -/
def Lands (i : ι) (branch : BranchName) (op : Operation) (transition : StageTransition)
    (w : World ι Store Event) (result : Except StoreError OpId) (w' : World ι Store Event) : Prop :=
  match result with
  | .ok id => ∃ parent record filed, record.opId = id ∧ Variant op record.op ∧
      record.produces = transition ∧ Grew i [.landed branch parent record filed] w w'
  | .error _ => Grew i [] w w'

theorem Lands.after {w' w'' : World ι Store Event} {result : Except StoreError OpId} (hgrew : Grew i [] w w')
    (h : Lands i branch op transition w' result w'') : Lands i branch op transition w result w'' := by
  cases result with
  | ok id =>
    obtain ⟨parent, record, filed, hid, hvariant, hproduces, hgrew'⟩ := h
    exact ⟨parent, record, filed, hid, hvariant, hproduces, by simpa using hgrew.trans hgrew'⟩
  | error e => exact hgrew.trans h

section Loop

variable {op : Operation} {transition : StageTransition} {hook : OperationRecord → StoreProg Unit}

/-- **The loop**, on any number of attempts. -/
theorem casAttempts_sat (hhook : ∀ record w, Sat (spec env G) i (fun _ w' => Grew i [] w w') (hook record).run w)
    (attempts : Nat) (tried : Operation) (rebuiltAlready : Bool) (lastIoErr : Option StoreError)
    (htried : Variant op tried) (hG : ∀ parent record filed, Variant op record.op → record.produces = transition →
      G i (own i w.trace) (.landed branch parent record filed)) : Sat (spec env G) i (Lands i branch op transition w)
      (casAttempts env branch op transition hook attempts tried rebuiltAlready lastIoErr).run w := by
  induction attempts generalizing w tried rebuiltAlready lastIoErr with
  | zero => exact Grew.refl i w
  | succ attempts ih =>
    -- what is left to do after an attempt that was not seen
    have hretry : ∀ w' tried rebuiltAlready lastIoErr, Variant op tried → Grew i [] w w' →
        Sat (spec env G) i (Lands i branch op transition w)
          (casAttempts env branch op transition hook attempts tried rebuiltAlready
            lastIoErr).run w' := by
      intro w' tried rebuiltAlready lastIoErr hvariant hgrew
      refine (ih tried rebuiltAlready lastIoErr hvariant ?_).mono fun _ _ h => h.after hgrew
      intro parent record filed hv hp
      rw [hgrew.own_eq]
      exact hG parent record filed hv hp
    have hthrow : ∀ w' e, Grew i [] w w' →
        Sat (spec env G) i (Lands i branch op transition w) (throw e : StoreProg OpId).run w' :=
      fun w' e hgrew => hgrew
    unfold casAttempts
    refine sat_bind sat_readHead ?_ fun e w₁ h => h.1
    intro parent w₁ h₁
    have hvariant := htried.rebuild parent rebuiltAlready
    refine sat_attempt (sat_persist (h₁.2 parent rfl)) ?_
    intro persisted w₂ h₂
    have hgrew₂ : Grew i [] w w₂ := h₁.1.trans h₂.1
    cases persisted with
    | error e =>
      simp only
      split
      · exact hretry w₂ _ _ _ hvariant hgrew₂
      · exact hthrow w₂ e hgrew₂
    | ok record =>
      have hpersisted := h₂.2 record rfl
      refine sat_bind_unseen (hhook record w₂) ?_ fun e w₃ h => hgrew₂.trans h
      intro _ w₃ h₃
      have hgrew₃ : Grew i [] w w₃ := hgrew₂.trans h₃
      have hrecord : Variant op record.op := by
        rw [hpersisted.record_eq]
        exact hvariant
      have hproduces : record.produces = transition := by
        rw [hpersisted.record_eq]
        rfl
      refine sat_bind (sat_setBranchHeadOpCas (hpersisted.le h₃.1) ?_) ?_
        fun e w₄ h => hgrew₃.trans h
      · intro filed
        rw [hgrew₃.own_eq]
        exact hG parent record filed hrecord hproduces
      · intro outcome w₄ h₄
        cases outcome with
        | ok =>
          obtain ⟨filed, hgrew₄⟩ := h₄
          exact ⟨parent, record, filed, rfl, hrecord, hproduces,
            by simpa using hgrew₃.trans hgrew₄⟩
        | mismatch actual =>
          simp only
          split
          · exact hretry w₄ _ _ _ hvariant (hgrew₃.trans h₄)
          · exact hthrow w₄ _ (hgrew₃.trans h₄)
        | unknownBranch name => exact hthrow w₄ _ (hgrew₃.trans h₄)
        | io => exact hretry w₄ _ _ _ hvariant (hgrew₃.trans h₄)

/-- **`casRetryAdvance`**, with a hook that is not seen. -/
theorem casRetryAdvance_sat (hhook : ∀ record w, Sat (spec env G) i (fun _ w' => Grew i [] w w') (hook record).run w)
    (hG : ∀ parent record filed, Variant op record.op → record.produces = transition →
      G i (own i w.trace) (.landed branch parent record filed)) : Sat (spec env G) i (Lands i branch op transition w)
      (casRetryAdvance env branch op transition hook).run w := by
  refine sat_bind_unseen (sat_query.mono fun _ _ h => h.1) ?_ fun _ _ h => h
  intro _ w' hgrew
  refine (casAttempts_sat hhook _ _ _ _ (.refl op) ?_).mono fun _ _ h => h.after hgrew
  intro parent record filed hvariant hproduces
  rw [hgrew.own_eq]
  exact hG parent record filed hvariant hproduces

theorem applyOperationAttesting_sat (attestable : List StageId)
    (hG : ∀ parent record filed, Variant op record.op → record.produces = transition →
      G i (own i w.trace) (.landed branch parent record filed)) : Sat (spec env G) i (Lands i branch op transition w)
      (applyOperationAttesting env branch op transition attestable).run w :=
  casRetryAdvance_sat (fun _ _ => sat_gate _ _ _) hG

theorem applyOperation_sat (hG : ∀ parent record filed, Variant op record.op → record.produces = transition →
      G i (own i w.trace) (.landed branch parent record filed)) : Sat (spec env G) i (Lands i branch op transition w)
      (applyOperation env branch op transition).run w :=
  applyOperationAttesting_sat _ hG

end Loop

end Rules

end LexLang
