/-
# LexLang.Store.Batch — when a publish is all or nothing

A publish lands its operations one by one (`publish_program_with_intent`), each through its own checks,
and takes nothing back. So what it leaves when it fails depends on where it fails: before the first
landing nothing has moved, after it the head stands in the middle of the batch.
-/
import LexLang.Store.Alone

namespace LexLang

open LexLang.Vcs LexLang.Concurrent
open List

/-! ## Runs on which every access works -/

variable {e : StoreError} {stageIds : List StageId}

section Working

variable {ρ ρ' : Type} {store : Store}

/-- A program alone, on accesses that all work. -/
def working (p : StoreProg ρ) (store : Store) : Except StoreError ρ × Store :=
  p.run.run (fun _ => true) store

theorem working_bind (p : StoreProg ρ) (f : ρ → StoreProg ρ') (store : Store) :
    working (p >>= f) store =
      match working p store with
      | (.ok a, after) => working (f a) after
      | (.error e, after) => (.error e, after) := by
  unfold working
  rw [ExceptT.run_bind, Prog.run_bind_const]
  cases p.run.run (fun _ => true) store with
  | mk result after => cases result <;> rfl

variable {p : StoreProg ρ}

variable {f : ρ → StoreProg ρ'} {after : Store}

theorem working_bind_of_ok {a : ρ}
    (h : working p store = (.ok a, after)) : working (p >>= f) store = working (f a) after := by
  rw [working_bind, h]

theorem working_bind_of_error
    (h : working p store = (.error e, after)) : working (p >>= f) store = (.error e, after) := by
  rw [working_bind, h]

@[simp] theorem working_pure (a : ρ) : working (pure a) store = (.ok a, store) := rfl

@[simp] theorem working_throw (e : StoreError) : working (throw e : StoreProg ρ) store = (.error e, store) := rfl

theorem working_access (act : Store → Except StoreError ρ × Store) (label : Bool → Store → Option Event) :
    working (access act label) store = act store := rfl

@[simp] theorem working_query (read : Store → Except StoreError ρ) :
    working (query read) store = (read store, store) := rfl

@[simp] theorem working_update (write : Store → Store) : working (update write) store = (.ok (), write store) := rfl

theorem working_attempt {result : Except StoreError ρ}
    (h : working p store = (result, after)) : working (attempt p) store = (.ok result, after) := by
  unfold working at h ⊢
  unfold attempt
  rw [ExceptT.run_mk, Prog.run_bind_const, h]
  rfl

@[simp] theorem working_setBranchHeadOpCas (branch : BranchName) (expected : Option OpId) (record : OperationRecord) :
    working (setBranchHeadOpCas branch expected record) store =
      (.ok (store.casOutcome branch expected), store.casWrite branch expected record.opId) := rfl

theorem Alone.working {Q : Except StoreError ρ → Store → Prop}
    (h : Alone p Q store) : Q (working p store).1 (working p store).2 := Prog.run_of_wp h _

/-- The store with attestations put one after another. -/
def Store.attested (store : Store) (stamps : List (Nat → Attestation)) : Store :=
  { store with
    attestations := stamps.foldl (fun log stamp => log.put (stamp store.clock)) store.attestations }

theorem working_putAttestations (stamps : List (Nat → Attestation)) :
    working (putAttestations stamps) store = (.ok (), store.attested stamps) := by
  induction stamps generalizing store with
  | nil => rfl
  | cons stamp stamps ih =>
    unfold putAttestations putAttestation
    rw [working_bind_of_ok (working_update _), ih]
    rfl

theorem working_gate {branch : BranchName} {opId : OpId} {effects : EffectSet} {waivers : List TrustWaiver}
    (h : store.runRequiredAttestationsGate branch opId stageIds effects = .ok waivers) :
    working (gate branch opId stageIds effects) store =
      (.ok (), store.attested (waivers.map (trustWaived opId))) := by
  unfold gate
  have hquery : working (query fun store =>
      store.runRequiredAttestationsGate branch opId stageIds effects) store = (.ok waivers, store) := by
    rw [working_query, h]
  rw [working_bind_of_ok hquery]
  exact working_putAttestations _

end Working

/-! ## What the code checks of one operation -/

variable {mid : Store}

section Operation

variable (env : Env) (branch : BranchName) (program : HeadMap) (intentId : Option IntentId)

/-- The store once the stage that an operation needs is written. -/
def stageWritten (kind : OperationKind) (store : Store) : Store :=
  match (stageForKind kind).bind fun sigId => program[sigId]?.map fun stage => (sigId, stage) with
  | some (sigId, stageId) =>
    { store with
      stageFiles := (sigId, stageId) :: store.stageFiles
      stageIndex := store.stageIndex.insertIfNew stageId sigId }
  | none => store

/-- The record of an operation of the batch on the head it finds. -/
def batchRecord (kind : OperationKind) (store : Store) : OperationRecord :=
  .new env.digest (stampIntent (.new kind (store.headOp branch).toList) intentId)
    (transitionForKind kind)

/-- The store once the operation's stage is written and the operation persisted. -/
def persisted (kind : OperationKind) (store : Store) : Store :=
  { stageWritten program kind store with
    log := (stageWritten program kind store).log.put (batchRecord env branch intentId kind store) }

/-- **An operation passes its checks**: every pair it binds is written, the branch exists, and the
attestation gates let it through. -/
structure Admits (kind : OperationKind) (store : Store) : Prop where
  written : (stageWritten program kind store).checkPairsWritten (boundPairs (transitionForKind kind)) =
    .ok ()
  branchExists : (store.branchToAdvance branch).isSome
  gate : ∃ waivers, (persisted env branch program intentId kind store).runRequiredAttestationsGate branch
    (batchRecord env branch intentId kind store).opId (attestableStageIds (transitionForKind kind))
    (opDeclaredEffects kind) = .ok waivers

/-- The transition that counts when the operation lands: of the record that is filed under its id. -/
def filedTransition (kind : OperationKind) (store : Store) : StageTransition :=
  ((store.log.get (batchRecord env branch intentId kind store).opId).getD
    (batchRecord env branch intentId kind store)).produces

/-- The store after one operation of the batch, when every access works. -/
def afterOp (kind : OperationKind) (store : Store) : Store :=
  (working (publishOp env branch program intentId kind) store).2

/-- **The operations lead from a head map to the program**: each passes its checks on the store that
the ones before it leave. -/
def Reaches : List OperationKind → Store → HeadMap → Prop
  | [], _, map => map = program
  | kind :: kinds, store, map => Admits env branch program intentId kind store ∧
      Reaches kinds (afterOp env branch program intentId kind store)
        (applyTransition map (filedTransition env branch intentId kind store))

/-- The first operation of the batch is refused. -/
def FirstRefused : List OperationKind → Store → Prop
  | [], _ => False
  | kind :: _, store => ¬ Admits env branch program intentId kind store

variable {env branch program intentId} {kind : OperationKind} {store : Store}

theorem stageWritten_eq (program : HeadMap) (kind : OperationKind) (store : Store) :
    ∃ stageFiles stageIndex, stageWritten program kind store = { store with stageFiles, stageIndex } := by
  unfold stageWritten
  split
  · exact ⟨_, _, rfl⟩
  · exact ⟨store.stageFiles, store.stageIndex, rfl⟩

theorem working_publishStageOf :
    working (publishStageOf program kind) store = (.ok (), stageWritten program kind store) := by
  unfold publishStageOf stageWritten
  generalize (stageForKind kind).bind _ = stage
  cases stage <;> rfl

theorem publishStageOf_alone :
    Alone (publishStageOf program kind)
      (fun result after =>
        match result with
        | .ok _ => after = stageWritten program kind store
        | .error _ => after = store) store := by
  unfold publishStageOf stageWritten
  generalize (stageForKind kind).bind _ = stage
  cases stage with
  | none => rfl
  | some stage => exact alone_update.mpr ⟨rfl, rfl⟩

/-- A pair that is written is satisfiable. -/
theorem checkPairsSatisfiable_of_written {pairs : List (SigId × StageId)}
    (h : store.checkPairsWritten pairs = .ok ()) : store.checkPairsSatisfiable pairs = .ok () := by
  have hall : ∀ pair ∈ pairs, store.stageFileExists pair.1 pair.2 = true := by
    unfold Store.checkPairsWritten at h
    split at h
    · split at h <;> cases h
    · rename_i hnone
      intro pair hpair
      simpa using find?_eq_none.mp hnone pair hpair
  have hnone : pairs.findSome? (fun pair => (store.unsatisfiableOwner pair.1 pair.2).map
      (StoreError.unsatisfiablePair pair.1 pair.2)) = none := by
    refine findSome?_eq_none_iff.mpr fun pair hpair => ?_
    unfold Store.unsatisfiableOwner
    rw [if_pos (hall pair hpair)]
    rfl
  unfold Store.checkPairsSatisfiable
  rw [hnone]

theorem stampIntent_parents (kind : OperationKind) (head : Option OpId) (intentId : Option IntentId) :
    (stampIntent (.new kind head.toList) intentId).parents = head.toList := by
  have hsorted : sortedSet head.toList = head.toList := by
    cases head <;> rfl
  cases intentId <;> exact hsorted

theorem stampIntent_kind (op : Operation) (intentId : Option IntentId) :
    (stampIntent op intentId).kind = op.kind := by
  cases intentId <;> rfl

theorem batchRecord_digest : (batchRecord env branch intentId kind store).op.opId env.digest =
    (batchRecord env branch intentId kind store).opId := rfl

variable {op : Operation} {head : Option OpId}

/-- On the head it was built for an operation is not rebuilt. -/
theorem rebuild_self (h : op.parents = head.toList) : rebuild op op head false = op := by
  unfold rebuild
  rw [h]
  cases head <;> simp

/-- … and is applied. -/
theorem apply_head (h : op.parents = head.toList) (log : OpLog) (transition : StageTransition) :
    apply env.digest log head op transition =
      .ok (.new env.digest op transition, log.put (.new env.digest op transition)) := by
  have hcheck : checkParents log head op.parents = .ok () := by
    rw [h]
    cases head with
    | none => rfl
    | some head => exact if_pos rfl
  unfold apply
  rw [hcheck]

theorem persist_eq (h : op.parents = head.toList) (transition : StageTransition) :
    persistOpOnlyWithParent env branch head op transition =
      access
        (fun store =>
          if branch ≠ defaultBranch ∧ store.getBranch branch = none then
            (.error (.unknownBranch branch), store)
          else (.ok (.new env.digest op transition),
            { store with log := store.log.put (.new env.digest op transition) }))
        fun _ _ => none := by
  unfold persistOpOnlyWithParent
  congr 1
  funext store
  rw [apply_head h]

theorem branchToAdvance_eq_none : store.branchToAdvance branch = none ↔
    branch ≠ defaultBranch ∧ store.getBranch branch = none := by
  unfold Store.branchToAdvance
  rw [Option.or_eq_none_iff]
  constructor
  · rintro ⟨hnone, hdefault⟩
    refine ⟨fun h => ?_, hnone⟩
    rw [if_pos h] at hdefault
    cases hdefault
  · rintro ⟨hne, hnone⟩
    exact ⟨hnone, if_neg hne⟩

variable {after : Store}

theorem branchToAdvance_congr (h : after.branches = store.branches) :
    after.branchToAdvance branch = store.branchToAdvance branch := by
  unfold Store.branchToAdvance Store.getBranch
  rw [h]

theorem headOp_congr (h : after.branches = store.branches) (name : BranchName) :
    after.headOp name = store.headOp name := by
  unfold Store.headOp Store.getBranch
  rw [h]

variable {transition : StageTransition} {hook : OperationRecord → StoreProg Unit}

/-- **The first attempt succeeds**, when every access works and the hook lets the operation through. -/
theorem working_casAttempts {file : Branch} {gated : Store}
    (hparents : op.parents = (store.headOp branch).toList) (hfile : store.branchToAdvance branch = some file)
    (hhook : working (hook (.new env.digest op transition))
      { store with log := store.log.put (.new env.digest op transition) } = (.ok (), gated))
    (hgated : gated.branches = store.branches) (attempts : Nat) (lastIoErr : Option StoreError) :
    working (casAttempts env branch op transition hook (attempts + 1) op false lastIoErr) store =
      (.ok (OperationRecord.new env.digest op transition).opId,
        gated.writeBranch branch
          (file.advance (OperationRecord.new env.digest op transition).opId)) := by
  have hpersist : working
      (persistOpOnlyWithParent env branch (store.headOp branch) op transition) store =
        (.ok (.new env.digest op transition),
          { store with log := store.log.put (.new env.digest op transition) }) := by
    have hexists : ¬ (branch ≠ defaultBranch ∧ store.getBranch branch = none) := by
      rw [← branchToAdvance_eq_none, hfile]
      exact Option.some_ne_none file
    rw [persist_eq hparents]
    show ((if _ then _ else _ : Except StoreError OperationRecord × Store).1, _) = _
    rw [if_neg hexists]
    exact Prod.ext rfl (by simp only [if_neg hexists]; rfl)
  have hcas : gated.casOutcome branch (store.headOp branch) = .ok := by
    unfold Store.casOutcome
    rw [headOp_congr hgated, if_neg (by simp), branchToAdvance_congr hgated, hfile]
    rfl
  have hwrite : gated.casWrite branch (store.headOp branch)
      (OperationRecord.new env.digest op transition).opId =
        gated.writeBranch branch (file.advance (OperationRecord.new env.digest op transition).opId) := by
    unfold Store.casWrite
    rw [hcas, branchToAdvance_congr hgated, hfile]
  have hread : working (readHead branch) store = (.ok (store.headOp branch), store) := rfl
  unfold casAttempts
  rw [working_bind_of_ok hread]
  simp only [rebuild_self hparents]
  rw [working_bind_of_ok (working_attempt hpersist)]
  rw [working_bind_of_ok hhook, working_bind_of_ok (working_setBranchHeadOpCas _ _ _), hcas, hwrite]
  rfl

/-- The store once an operation has landed and been attested. -/
structure OpLanded (branch : BranchName) (record : OperationRecord) (store after : Store) : Prop where
  log : after.log = store.log.put record
  snapshots : after.snapshots = store.snapshots
  branches : ∃ file, after.branches = store.branches.insert branch (Branch.advance file record.opId)

/-- **An operation that passes its checks lands**, when every access works. -/
theorem Admits.lands (h : Admits env branch program intentId kind store) :
    working (publishOp env branch program intentId kind) store =
        (.ok (batchRecord env branch intentId kind store).opId, afterOp env branch program intentId kind store) ∧
      OpLanded branch (batchRecord env branch intentId kind store) store
        (afterOp env branch program intentId kind store) := by
  obtain ⟨waivers, hgate⟩ := h.gate
  obtain ⟨file, hfile⟩ := Option.isSome_iff_exists.mp h.branchExists
  obtain ⟨stageFiles, stageIndex, hstages⟩ := stageWritten_eq program kind store
  let op := stampIntent (.new kind (store.headOp branch).toList) intentId
  let id := (batchRecord env branch intentId kind store).opId
  let gated := (persisted env branch program intentId kind store).attested
    (waivers.map (trustWaived id))
  have hhead : (stageWritten program kind store).headOp branch = store.headOp branch := by
    rw [hstages]
    rfl
  have hchecks : working (query fun store => store.checkPairsSatisfiable
      (boundPairs (transitionForKind kind))) (stageWritten program kind store) =
        (.ok (), stageWritten program kind store) := by
    rw [working_query, checkPairsSatisfiable_of_written h.written]
  have hwritten : working (query fun store => store.checkPairsWritten
      (boundPairs (transitionForKind kind))) (stageWritten program kind store) =
        (.ok (), stageWritten program kind store) := by
    rw [working_query, h.written]
  have hread : working (readHead branch) (stageWritten program kind store) =
      (.ok (store.headOp branch), stageWritten program kind store) := by
    rw [← hhead]
    rfl
  have hhook : working (LexLang.gate branch id (attestableStageIds (transitionForKind kind))
      (opDeclaredEffects op.kind)) (persisted env branch program intentId kind store) =
        (.ok (), gated) := by
    rw [stampIntent_kind]
    exact working_gate hgate
  have hlands : working (applyOperation env branch op (transitionForKind kind))
      (stageWritten program kind store) = (.ok id, gated.writeBranch branch (file.advance id)) := by
    unfold applyOperation applyOperationAttesting casRetryAdvance
    rw [working_bind_of_ok hchecks]
    refine working_casAttempts ?_ ?_ ?_ ?_ 31 none
    · rw [hhead]
      exact stampIntent_parents _ _ _
    · rw [hstages]
      exact hfile
    · exact hhook
    · rfl
  have hop : working (publishOp env branch program intentId kind) store =
      (.ok id, (gated.writeBranch branch (file.advance id)).attested
        ((attestableStageIds (transitionForKind kind)).map (typecheckPassed id))) := by
    unfold publishOp
    rw [working_bind_of_ok working_publishStageOf, working_bind_of_ok hwritten,
      working_bind_of_ok hread, working_bind_of_ok hlands]
    unfold recordTypecheckPassed
    rw [working_bind_of_ok (working_putAttestations _)]
    rfl
  unfold afterOp
  rw [hop]
  refine ⟨rfl, ?_⟩
  show OpLanded branch _ store (((persisted env branch program intentId kind store).attested _).writeBranch
    branch (file.advance id) |>.attested _)
  unfold persisted
  rw [hstages]
  exact ⟨rfl, rfl, file, rfl⟩

theorem beside_stageWritten (hwf : store.WellFormed env.digest) :
    Beside env.digest store (stageWritten program kind store) := by
  obtain ⟨stageFiles, stageIndex, hstages⟩ := stageWritten_eq program kind store
  rw [hstages]
  exact ⟨hwf.congr rfl (fun _ => rfl) rfl, OpLog.Le.refl _, rfl, rfl, rfl, List.Subset.refl _⟩

theorem beside_persisted (hwf : store.WellFormed env.digest) :
    Beside env.digest store (persisted env branch program intentId kind store) := by
  have hstages : Beside env.digest store (stageWritten program kind store) := beside_stageWritten hwf
  refine hstages.trans ⟨hstages.wf.put rfl ?_, OpLog.le_put _ _, rfl, rfl, rfl, List.Subset.refl _⟩
  have hparents : (batchRecord env branch intentId kind store).op.parents =
      (store.headOp branch).toList := stampIntent_parents _ _ _
  rw [hparents, ← hstages.headOp]
  intro p hp
  exact hstages.wf.heads branch p (Option.mem_toList.mp hp)

/-- An operation of the batch ends with an error and moves no head. -/
def Fails (env : Env) (store : Store) {ρ : Type} (result : Except StoreError ρ) (after : Store) : Prop :=
  (∃ e, result = .error e) ∧ Beside env.digest store after

theorem Fails.of_beside {ρ : Type}
    (h : Beside env.digest store after) : Fails env store (.error e : Except StoreError ρ) after :=
  ⟨⟨e, rfl⟩, h⟩

theorem gate_fails {opId : OpId} {effects : EffectSet} (hmid : Beside env.digest store mid)
    (h : mid.runRequiredAttestationsGate branch opId stageIds effects = .error e) :
    Alone (gate branch opId stageIds effects) (Fails env store) mid := by
  refine alone_bind.mpr (alone_query.mpr ⟨.of_beside hmid, ?_⟩)
  rw [h]
  exact .of_beside hmid

theorem casAttempts_fails (hmid : Beside env.digest store mid) (hparents : op.parents = (mid.headOp branch).toList)
    (hrefused : (mid.branchToAdvance branch).isSome →
      Beside env.digest store { mid with log := mid.log.put (.new env.digest op transition) } ∧
      Alone (hook (.new env.digest op transition)) (Fails env store)
        { mid with log := mid.log.put (.new env.digest op transition) })
    (attempts : Nat) (lastIoErr : Option StoreError) :
    Alone (casAttempts env branch op transition hook (attempts + 1) op false lastIoErr)
      (Fails env store) mid := by
  refine alone_bind.mpr (readHead_alone.mono ?_)
  rintro (e | parent) mid' ⟨rfl, hparent⟩
  · exact .of_beside hmid
  obtain rfl := hparent parent rfl
  simp only [rebuild_self hparents, persist_eq hparents]
  refine alone_bind.mpr (alone_attempt.mpr (alone_access.mpr ⟨.of_beside hmid, ?_⟩))
  by_cases hmissing : branch ≠ defaultBranch ∧ mid'.getBranch branch = none
  · rw [if_pos hmissing]
    exact .of_beside hmid
  · rw [if_neg hmissing]
    rw [← branchToAdvance_eq_none] at hmissing
    obtain ⟨hpersisted, hhook⟩ := hrefused (Option.isSome_iff_ne_none.mpr hmissing)
    refine alone_bind.mpr (hhook.mono ?_)
    rintro result after ⟨⟨e, rfl⟩, hafter⟩
    exact .of_beside hafter

/-- **An operation that does not pass its checks is refused**, whatever the accesses answer, and no
head moves. -/
theorem fails_of_not_admits (hwf : store.WellFormed env.digest)
    (h : ¬ Admits env branch program intentId kind store) :
    Alone (publishOp env branch program intentId kind) (Fails env store) store := by
  have hstages : Beside env.digest store (stageWritten program kind store) := beside_stageWritten hwf
  have hrest : Alone (do
      query fun store => store.checkPairsWritten (boundPairs (transitionForKind kind))
      let headNow ← readHead branch
      let opId ← applyOperation env branch (stampIntent (.new kind headNow.toList) intentId)
        (transitionForKind kind)
      recordTypecheckPassed (attestableStageIds (transitionForKind kind)) opId
      pure opId) (Fails env store) (stageWritten program kind store) := by
    refine alone_bind.mpr (alone_query.mpr ⟨.of_beside hstages, ?_⟩)
    cases hwritten : (stageWritten program kind store).checkPairsWritten
        (boundPairs (transitionForKind kind)) with
    | error e => exact .of_beside hstages
    | ok _ =>
      refine alone_bind.mpr (readHead_alone.mono ?_)
      rintro (e | head) mid ⟨rfl, hhead⟩
      · exact .of_beside hstages
      obtain rfl := hhead head rfl
      refine alone_bind.mpr (alone_bind.mpr (alone_query.mpr ⟨.of_beside hstages, ?_⟩))
      rw [checkPairsSatisfiable_of_written hwritten]
      refine (casAttempts_fails hstages (stampIntent_parents _ _ _) ?_ 31 none).mono ?_
      · intro hbranch
        rw [hstages.headOp, stampIntent_kind]
        refine ⟨beside_persisted hwf, ?_⟩
        rw [branchToAdvance_congr hstages.branches] at hbranch
        cases hgate : (persisted env branch program intentId kind store).runRequiredAttestationsGate branch
            (batchRecord env branch intentId kind store).opId
            (attestableStageIds (transitionForKind kind)) (opDeclaredEffects kind) with
        | ok waivers => exact absurd ⟨hwritten, hbranch, waivers, hgate⟩ h
        | error e => exact gate_fails (beside_persisted hwf) hgate
      · rintro result after ⟨⟨e, rfl⟩, hafter⟩
        exact .of_beside hafter
  refine alone_bind.mpr (publishStageOf_alone.mono ?_)
  rintro (e | _) after hafter
  · rw [hafter]
    exact .of_beside (.refl hwf)
  · rw [hafter]
    exact hrest

/-! ### What a landed operation leaves -/

/-- The head of a branch and everything below it in another store: `after`'s head descends from
`store`'s, in a log that has grown. -/
structure Descends (env : Env) (branch : BranchName) (store after : Store) : Prop where
  wf : after.WellFormed env.digest
  log : store.log.Le after.log
  head : ∀ head, store.headOp branch = some head →
    ∃ head', after.headOp branch = some head' ∧ after.log.Reach head' head

theorem Descends.refl (hwf : store.WellFormed env.digest) : Descends env branch store store :=
  ⟨hwf, OpLog.Le.refl _, fun head h => ⟨head, h, .refl⟩⟩

theorem Descends.trans (h : Descends env branch store mid)
    (h' : Descends env branch mid after) : Descends env branch store after where
  wf := h'.wf
  log := h.log.trans h'.log
  head := by
    intro head hhead
    obtain ⟨head', hhead', hreach⟩ := h.head head hhead
    obtain ⟨head'', hhead'', hreach'⟩ := h'.head head' hhead'
    exact ⟨head'', hhead'', hreach'.trans (h'.log.reach hreach)⟩

theorem Descends.of_beside (h : Beside env.digest store after) : Descends env branch store after :=
  ⟨h.wf, h.log, fun head hhead => ⟨head, (h.headOp branch).trans hhead, .refl⟩⟩

section Landed

variable {after : Store}

theorem OpLanded.headOp {record : OperationRecord} (h : OpLanded branch record store after) :
    after.headOp branch = some record.opId := by
  obtain ⟨file, hbranches⟩ := h.branches
  unfold Store.headOp Store.getBranch
  rw [hbranches, Std.ExtTreeMap.getElem?_insert_self]
  rfl

variable (h : OpLanded branch (batchRecord env branch intentId kind store) store after)
include h

/-- What is filed under the id of a landed operation has the head as its only parent. -/
theorem OpLanded.filed (hwf : after.WellFormed env.digest) :
    ∃ filed, after.log.get (batchRecord env branch intentId kind store).opId = some filed ∧
      filed.produces = filedTransition env branch intentId kind store ∧
      ∀ p, p ∈ filed.op.parents ↔ p ∈ (store.headOp branch).toList := by
  have hget : after.log.get (batchRecord env branch intentId kind store).opId =
      some ((store.log.get (batchRecord env branch intentId kind store).opId).getD
        (batchRecord env branch intentId kind store)) := by
    rw [h.log, OpLog.get_put, if_pos rfl]
    cases store.log.get (batchRecord env branch intentId kind store).opId <;> rfl
  refine ⟨_, hget, rfl, fun p => ?_⟩
  rw [mem_parents_of_hashed hwf.hashed hget rfl]
  have hparents : (batchRecord env branch intentId kind store).op.parents =
      (store.headOp branch).toList := stampIntent_parents _ _ _
  rw [hparents]

theorem OpLanded.wf (hwf : store.WellFormed env.digest) : after.WellFormed env.digest := by
  obtain ⟨file, hbranches⟩ := h.branches
  have hparents : ∀ p ∈ (batchRecord env branch intentId kind store).op.parents,
      store.log.get p ≠ none := by
    have hhead : (batchRecord env branch intentId kind store).op.parents =
        (store.headOp branch).toList := stampIntent_parents _ _ _
    rw [hhead]
    exact fun p hp => hwf.heads branch p (Option.mem_toList.mp hp)
  obtain ⟨filed, hfiled⟩ := OpLog.get_put_opId store.log (batchRecord env branch intentId kind store)
  have hwritten : Store.WellFormed env.digest
      { store with
        log := store.log.put (batchRecord env branch intentId kind store)
        branches := store.branches.insert branch
          (file.advance (batchRecord env branch intentId kind store).opId) } :=
    (hwf.put batchRecord_digest hparents).writeBranch fun head hhead => by
      rw [← Option.some.inj hhead, hfiled]
      exact Option.some_ne_none filed
  refine hwritten.congr h.log (fun name => ?_) h.snapshots
  unfold Store.headOp Store.getBranch
  rw [hbranches]

/-- **A landed operation** moves the head map by the transition that is filed under its id, and stands
strictly above the head it landed on. -/
theorem OpLanded.moves (hwf : store.WellFormed env.digest) : Descends env branch store after ∧
      after.headMap branch = applyTransition (store.headMap branch) (filedTransition env branch intentId kind store) ∧
      ∀ final, Descends env branch after final → final.headOp branch ≠ store.headOp branch := by
  have hwf' := h.wf hwf
  obtain ⟨filed, hfiled, hproduces, hparents⟩ := h.filed hwf'
  have hle : store.log.Le after.log := h.log ▸ OpLog.le_put _ _
  have hedge : ∀ head, store.headOp branch = some head →
      Graph.Edge after.log.parentsOf (batchRecord env branch intentId kind store).opId head :=
    fun head hhead => OpLog.edge_iff.mpr ⟨filed, hfiled, (hparents head).mpr (by rw [hhead]; simp)⟩
  refine ⟨⟨hwf', hle, fun head hhead => ⟨_, h.headOp, .single (hedge head hhead)⟩⟩, ?_, ?_⟩
  · unfold Store.headMap
    rw [h.headOp]
    show after.log.replay _ = _
    rw [OpLog.replay_of_toList hwf'.acyclic hfiled hparents, hproduces,
      replayHead_of_le hwf.closed hle (hwf.logged branch)]
  · intro final hfinal hsame
    obtain ⟨head, hhead, hreach⟩ := hfinal.head _ h.headOp
    rw [hhead] at hsame
    -- the old head would be above the operation that stands on it
    exact hfinal.wf.acyclic _ (.head' (hfinal.log.edge (hedge head hsame.symm)) hreach)

end Landed

/-! ### The batch -/

/-- An operation is the branch's head or below it. -/
def Standing (branch : BranchName) (store : Store) (id : OpId) : Prop :=
  ∃ head, store.headOp branch = some head ∧ store.log.Reach head id

theorem Standing.descends {id : OpId} (h : Standing branch store id)
    (hdescends : Descends env branch store after) : Standing branch after id := by
  obtain ⟨head, hhead, hreach⟩ := h
  obtain ⟨head', hhead', hreach'⟩ := hdescends.head head hhead
  exact ⟨head', hhead', hreach'.trans (hdescends.log.reach hreach)⟩

/-- **How a batch ends** when every access works. -/
theorem publishOps_working (hwf : store.WellFormed env.digest) (kinds : List OperationKind) :
    match working (publishOps env branch program intentId kinds) store with
    | (.ok ops, after) => Descends env branch store after ∧
        (Reaches env branch program intentId kinds store (store.headMap branch) ↔
          after.headMap branch = program) ∧
        ¬ FirstRefused env branch program intentId kinds store ∧
        (∀ id ∈ ops, Standing branch after id) ∧ ops.getLast?.or (store.headOp branch) = after.headOp branch
    | (.error _, after) => Descends env branch store after ∧
        ¬ Reaches env branch program intentId kinds store (store.headMap branch) ∧
        (after.headOp branch = store.headOp branch ↔
          FirstRefused env branch program intentId kinds store) := by
  induction kinds generalizing store with
  | nil => exact ⟨.refl hwf, Iff.rfl, fun h => h, by simp, by simp⟩
  | cons kind kinds ih =>
    by_cases hadmits : Admits env branch program intentId kind store
    · obtain ⟨hworks, hlanded⟩ := hadmits.lands
      obtain ⟨hdescends, hmap, habove⟩ := hlanded.moves hwf
      have hrest := ih hdescends.wf
      have hrun : working (publishOps env branch program intentId (kind :: kinds)) store =
          match working (publishOps env branch program intentId kinds)
            (afterOp env branch program intentId kind store) with
          | (.ok rest, after) => (.ok ((batchRecord env branch intentId kind store).opId :: rest), after)
          | (.error e, after) => (.error e, after) := by
        rw [publishOps, working_bind_of_ok hworks, working_bind]
        cases working (publishOps env branch program intentId kinds)
            (afterOp env branch program intentId kind store) with
        | mk result after => cases result <;> rfl
      have hreaches : Reaches env branch program intentId (kind :: kinds) store
            (store.headMap branch) ↔
          Reaches env branch program intentId kinds (afterOp env branch program intentId kind store)
            ((afterOp env branch program intentId kind store).headMap branch) := by
        rw [hmap]
        exact and_iff_right hadmits
      have hfirst : ¬ FirstRefused env branch program intentId (kind :: kinds) store :=
        fun h => h hadmits
      rw [hrun, hreaches]
      cases hworking : working (publishOps env branch program intentId kinds)
          (afterOp env branch program intentId kind store) with
      | mk result after =>
        rw [hworking] at hrest
        cases result with
        | ok ops =>
          obtain ⟨hdescends', hiff, -, hstanding, hlast⟩ := hrest
          refine ⟨hdescends.trans hdescends', hiff, hfirst, ?_, ?_⟩
          · intro id hid
            rcases mem_cons.mp hid with rfl | hid
            · exact Standing.descends ⟨_, hlanded.headOp, .refl⟩ hdescends'
            · exact hstanding id hid
          · rw [← hlast, hlanded.headOp]
            cases ops with
            | nil => rfl
            | cons id ops =>
              rw [getLast?_cons]
              rfl
        | error e =>
          obtain ⟨hdescends', hnot, -⟩ := hrest
          exact ⟨hdescends.trans hdescends', hnot,
            fun hsame => absurd hsame (habove after hdescends'), fun h => absurd h hfirst⟩
    · have hfails := (fails_of_not_admits hwf hadmits).working
      cases hworking : working (publishOp env branch program intentId kind) store with
      | mk result after =>
        rw [hworking] at hfails
        obtain ⟨⟨e, rfl⟩, hbeside⟩ := hfails
        rw [publishOps, working_bind_of_error hworking]
        exact ⟨.of_beside hbeside, fun h => hadmits h.1, fun _ => hadmits,
          fun _ => hbeside.headOp branch⟩

end Operation

/-! ## All or nothing -/

section Publish

variable (env : Env) (branch : BranchName) (program : HeadMap)
  (diffToOps : Store → HeadMap → Except StoreError (List OperationKind)) (intentId : Option IntentId)

/-- **All or nothing**: `Ok` with the head naming exactly the program and every operation at or below
it, or an error with the head as it was. -/
def AllOrNothing (before : Store) : Except StoreError PublishOutcome × Store → Prop
  | (.ok outcome, after) => after.headMap branch = program ∧ outcome.headOp = after.headOp branch ∧
      ∀ id ∈ outcome.ops, Standing branch after id
  | (.error _, after) => after.headOp branch = before.headOp branch

/-- The publish gets as far as a plan: the program type-checks, the branch's head map is read, and the
diff is mapped to operations. -/
structure Planned (store mid : Store) (map : HeadMap) (kinds : List OperationKind) : Prop where
  checks : env.typeChecks program = true
  view : store.headView branch = .ok (map, mid)
  plan : diffToOps mid map = .ok kinds

/-- A publish whose first operation is refused, or whose operations lead to the program. -/
def LandsOrRefuses (store : Store) : Prop :=
  ∀ mid map kinds, Planned env branch program diffToOps store mid map kinds →
    FirstRefused env branch program intentId kinds mid ∨
      Reaches env branch program intentId kinds mid map

/-- A publish that lands nothing: whose first operation is refused, or which has none to land and the
program there already. -/
def LandsNothing (store : Store) : Prop :=
  ∀ mid map kinds, Planned env branch program diffToOps store mid map kinds →
    FirstRefused env branch program intentId kinds mid ∨ kinds = [] ∧ map = program

variable {env branch program diffToOps intentId} {store : Store}

/-- What a publish does once it has its plan. -/
def landPlan (env : Env) (branch : BranchName) (program : HeadMap) (intentId : Option IntentId)
    (kinds : List OperationKind) : StoreProg PublishOutcome := do
  let ops ← publishOps env branch program intentId kinds
  update id
  match ops.getLast? with
  | some opId => pure { ops, headOp := some opId }
  | none =>
    let headOp ← readHead branch
    pure { ops, headOp }

theorem working_landPlan (hwf : store.WellFormed env.digest) (kinds : List OperationKind) :
    AllOrNothing branch program store (working (landPlan env branch program intentId kinds) store) ↔
      FirstRefused env branch program intentId kinds store ∨
        Reaches env branch program intentId kinds store (store.headMap branch) := by
  have hbatch := @publishOps_working env branch program intentId store hwf kinds
  unfold landPlan
  cases hworking : working (publishOps env branch program intentId kinds) store with
  | mk result after =>
    rw [hworking] at hbatch
    cases result with
    | error e =>
      obtain ⟨-, hnot, hiff⟩ := hbatch
      rw [working_bind_of_error hworking, or_iff_left hnot]
      exact hiff
    | ok ops =>
      obtain ⟨-, hiff, hfirst, hstanding, hlast⟩ := hbatch
      rw [working_bind_of_ok hworking, or_iff_right hfirst, hiff]
      cases hops : ops.getLast? with
      | some id =>
        rw [hops] at hlast
        exact ⟨fun h => h.1, fun h => ⟨h, hlast, hstanding⟩⟩
      | none => exact ⟨fun h => h.1, fun h => ⟨h, rfl, hstanding⟩⟩

/-- Only the head a publish started from counts. -/
theorem allOrNothing_congr (h : mid.headOp branch = store.headOp branch)
    (ending : Except StoreError PublishOutcome × Store) :
    AllOrNothing branch program mid ending ↔ AllOrNothing branch program store ending := by
  obtain ⟨result, after⟩ := ending
  cases result with
  | ok outcome => exact Iff.rfl
  | error e =>
    show _ = _ ↔ _ = _
    rw [h]

theorem publish_eq : publishProgramWithIntent env branch program diffToOps intentId = (do
    if ← typeCheck env program then
      let oldHead ← planFrom branch
      let kinds ← query fun store => diffToOps store oldHead
      landPlan env branch program intentId kinds
    else throw .typeError) := rfl

theorem working_typeCheck : working (typeCheck env program) store = (.ok (env.typeChecks program), store) := rfl

variable {kinds : List OperationKind}

variable {map : HeadMap}

section

variable (h : Planned env branch program diffToOps store mid map kinds)
include h

/-- What a publish leaves beside the heads while it plans. -/
theorem Planned.beside (hwf : store.WellFormed env.digest) : Beside env.digest store mid ∧ mid.headMap branch = map := by
  have hbeside := Beside.of_headView hwf h.view
  refine ⟨hbeside, ?_⟩
  obtain ⟨hmap, -, snapshots, rfl⟩ := hwf.headView h.view
  exact hmap.symm

theorem Planned.working_planFrom :
    working (planFrom branch) store = (.ok map, mid) := by
  unfold planFrom readHeadMap
  rw [working_access, h.view]

/-- A publish that gets as far as a plan lands the plan. -/
theorem Planned.working_publish :
    working (publishProgramWithIntent env branch program diffToOps intentId) store =
      working (landPlan env branch program intentId kinds) mid := by
  have hplan : working (query fun store => diffToOps store map) mid = (.ok kinds, mid) := by
    rw [working_query, h.plan]
  rw [publish_eq, working_bind_of_ok working_typeCheck, if_pos h.checks,
    working_bind_of_ok h.working_planFrom, working_bind_of_ok hplan]

end

/-- One that does not ends with an error, and the head as it was. -/
theorem publish_alone (hwf : store.WellFormed env.digest) {Q : Except StoreError PublishOutcome → Store → Prop}
    (hplanned : ∀ mid map kinds, Planned env branch program diffToOps store mid map kinds →
      Alone (landPlan env branch program intentId kinds) Q mid)
    (herror : ∀ e after, Beside env.digest store after → Q (.error e) after) :
    Alone (publishProgramWithIntent env branch program diffToOps intentId) Q store := by
  have hsame := Beside.refl hwf
  refine alone_bind.mpr (alone_access.mpr ⟨herror _ _ hsame, ?_⟩)
  show Alone (if _ then _ else _) _ _
  split
  · rename_i hchecks
    refine alone_bind.mpr (alone_access.mpr ⟨herror _ _ hsame, ?_⟩)
    cases hview : store.headView branch with
    | error e => exact herror _ _ hsame
    | ok view =>
      obtain ⟨map, mid⟩ := view
      have hmid := Beside.of_headView hwf hview
      refine alone_bind.mpr (alone_query.mpr ⟨herror _ _ hmid, ?_⟩)
      cases hplan : diffToOps mid map with
      | error e => exact herror _ _ hmid
      | ok kinds => exact hplanned mid map kinds ⟨hchecks, hview, hplan⟩
  · exact herror _ _ hsame

/-- **On accesses that all work**, a publish is all or nothing exactly when its first operation is
refused or its operations lead to the program. -/
theorem working_publish_iff (hwf : store.WellFormed env.digest) : AllOrNothing branch program store
        (working (publishProgramWithIntent env branch program diffToOps intentId) store) ↔
      LandsOrRefuses env branch program diffToOps intentId store := by
  constructor
  · intro h mid map kinds hplanned
    obtain ⟨hmid, rfl⟩ := hplanned.beside hwf
    rw [hplanned.working_publish, ← allOrNothing_congr (hmid.headOp branch), working_landPlan hmid.wf] at h
    exact h
  · intro h
    by_cases hplanned : ∃ mid map kinds, Planned env branch program diffToOps store mid map kinds
    · obtain ⟨mid, map, kinds, hplanned⟩ := hplanned
      obtain ⟨hmid, rfl⟩ := hplanned.beside hwf
      rw [hplanned.working_publish, ← allOrNothing_congr (hmid.headOp branch), working_landPlan hmid.wf]
      exact h _ _ _ hplanned
    · have halone : Alone (publishProgramWithIntent env branch program diffToOps intentId)
          (fun result after => AllOrNothing branch program store (result, after)) store :=
        publish_alone hwf (fun mid map kinds hp => absurd ⟨mid, map, kinds, hp⟩ hplanned)
          fun e after hbeside => hbeside.headOp branch
      exact halone.working

/-! ### Accesses that fail -/

/-- Some answers lead a program alone to `Q`. -/
def Might {ρ : Type} (p : StoreProg ρ) (Q : Except StoreError ρ → Store → Prop) (store : Store) : Prop :=
  p.run.May Q store

theorem Might.mono {ρ : Type} {p : StoreProg ρ} {Q Q' : Except StoreError ρ → Store → Prop}
    (h : Might p Q store) (hQ : ∀ result after, Q result after → Q' result after) : Might p Q' store := by
  obtain ⟨answers, h⟩ := Prog.may_iff.mp h
  exact Prog.may_iff.mpr ⟨answers, hQ _ _ h⟩

theorem might_bind {ρ ρ' : Type} {p : StoreProg ρ} {f : ρ → StoreProg ρ'}
    {Q : Except StoreError ρ' → Store → Prop} :
    Might (p >>= f) Q store ↔
      Might p
        (fun result after =>
          match result with
          | .ok a => Might (f a) Q after
          | .error e => Q (.error e) after)
        store := by
  have hcongr : ∀ (q : Prog Store Event Bool (Except StoreError ρ)) {P P'}, (∀ r t, P r t ↔ P' r t) →
      ∀ s, q.May P s ↔ q.May P' s := by
    intro q P P' h
    induction q with
    | ret result => exact fun s => h result s
    | atom act label next ih => exact fun s => exists_congr fun answer => ih answer s _
  unfold Might
  rw [ExceptT.run_bind, Prog.may_bind]
  refine hcongr _ (fun result after => ?_) _
  cases result <;> exact Iff.rfl

/-- What happens when the accesses work might happen. -/
theorem might_of_working {ρ : Type} {p : StoreProg ρ} {result : Except StoreError ρ} {after : Store}
    {Q : Except StoreError ρ → Store → Prop} (h : working p store = (result, after))
    (hQ : Q result after) : Might p Q store := by
  refine Prog.may_iff.mpr ⟨fun _ => true, ?_⟩
  unfold working at h
  rw [h]
  exact hQ

theorem might_bind_of_working {ρ ρ' : Type} {p : StoreProg ρ} {f : ρ → StoreProg ρ'} {a : ρ}
    {after : Store} {Q : Except StoreError ρ' → Store → Prop}
    (h : working p store = (.ok a, after)) (hf : Might (f a) Q after) : Might (p >>= f) Q store :=
  might_bind.mpr (might_of_working h hf)

/-- **One access might fail.** -/
theorem might_bind_of_fails {ρ ρ' : Type} {act : Store → Except StoreError ρ × Store}
    {label : Bool → Store → Option Event} {f : ρ → StoreProg ρ'}
    {Q : Except StoreError ρ' → Store → Prop} (hQ : Q (.error .io) store) :
    Might (access act label >>= f) Q store := might_bind.mpr ⟨false, hQ⟩

/-- An operation might fail at its first access. -/
theorem publishOp_might_fail (kind : OperationKind) {f : OpId → StoreProg (List OpId)}
    {Q : Except StoreError (List OpId) → Store → Prop} (hQ : Q (.error .io) store) :
    Might (publishOp env branch program intentId kind >>= f) Q store := by
  unfold publishOp publishStageOf
  generalize (stageForKind kind).bind _ = stage
  rw [bind_assoc]
  cases stage with
  | none => exact might_bind_of_working rfl (might_bind.mpr (might_bind_of_fails hQ))
  | some stage => exact might_bind_of_fails hQ

/-- The rest of a batch is done or might fail, with nothing moved. -/
theorem publishOps_might_stop (kinds : List OperationKind) : Might (publishOps env branch program intentId kinds)
      (fun result after => after = store ∧ (result = .ok [] ∨ result = .error .io)) store := by
  cases kinds with
  | nil => exact ⟨rfl, .inl rfl⟩
  | cons kind kinds => exact publishOp_might_fail kind ⟨rfl, .inr rfl⟩

/-- **A batch that lands its first operation might fail after it.** -/
theorem landPlan_might_fail (hwf : store.WellFormed env.digest) {kind : OperationKind}
    (h : Admits env branch program intentId kind store) : Might (landPlan env branch program intentId (kind :: kinds))
      (fun result after => ¬ AllOrNothing branch program store (result, after)) store := by
  obtain ⟨hworks, hlanded⟩ := h.lands
  obtain ⟨hdescends, -, habove⟩ := hlanded.moves hwf
  have hmoved : ∀ e, ¬ AllOrNothing branch program store
      (.error e, afterOp env branch program intentId kind store) :=
    fun e hsame => habove _ (.refl hdescends.wf) hsame
  refine might_bind.mpr (might_bind_of_working hworks (might_bind.mpr ?_))
  refine (publishOps_might_stop kinds).mono ?_
  rintro result after ⟨rfl, rfl | rfl⟩
  · -- the documentation might not be written
    exact might_bind.mpr ⟨false, hmoved _⟩
  · exact hmoved _

theorem landPlan_fails (hwf : store.WellFormed env.digest)
    (h : FirstRefused env branch program intentId kinds store) :
    Alone (landPlan env branch program intentId kinds) (Fails env store) store := by
  cases kinds with
  | nil => exact absurd h id
  | cons kind kinds =>
    refine alone_bind.mpr (alone_bind.mpr ((fails_of_not_admits hwf h).mono ?_))
    rintro result after ⟨⟨e, rfl⟩, hafter⟩
    exact .of_beside hafter

end Publish

/-! ## A batch whose second operation is refused -/

/-- Two functions to publish on an empty branch. -/
def pairKinds : List OperationKind :=
  [.addFunction "f" "s1" ∅ none none, .addFunction "g" "s2" ∅ none none]

def pairProgram : HeadMap := ((∅ : HeadMap).insert "f" "s1").insert "g" "s2"

noncomputable def pairEnv : Env where
  digest := .ofTable
    [((Operation.new (.addFunction "f" "s1" ∅ none none) []).canonicalForm, "a"),
      ((Operation.new (.addFunction "g" "s2" ∅ none none) ["a"]).canonicalForm, "b")]
    (by decide) (by decide)
  typeChecks := fun _ => true
  locksAgree := fun _ => true
  semanticMerge := fun _ _ _ _ _ _ => none
  manifestOk := fun _ => true

/-- An empty store in which a stage of the program carries the mark of a quarantined tool. -/
def quarantineStore : Store :=
  { Store.empty with
    attestations :=
      [{ stageId := "bot", opId := none, kind := .producerBlock "bot" "" 0, result := .passed
         producedBy := { tool := "lex attest retro-block", model := none }, timestamp := 0 },
        { stageId := "s2", opId := none, kind := .typeCheck, result := .passed
          producedBy := { tool := "bot", model := none }, timestamp := 1 }] }

end LexLang
