/-
# LexLang.Store.Commit — merges, pushes, and the other ways a head moves

The write paths that do not go through a single operation: the gated landing of a merge with its
rollback, the report and commit of a three-way merge (`lex-store/src/branches.rs`), fast-forward
pushes, branch creation, and the quarantine of a producer.

Only `setBranchHeadOpCas` compares before it writes. `setBranchHeadOp` reads the branch file and writes
it back, in two steps; a push, a rollback, and the journal line of a merge go this way.
-/
import LexLang.Store.Advance
import LexLang.Vcs.Merge

namespace LexLang

open LexLang.Vcs LexLang.Concurrent

/-! ## Setting a head without comparing -/

/-- Read the branch file to advance. -/
def readBranchToAdvance (branch : BranchName) (lost : Option Event) : StoreProg Branch :=
  access
    (fun store =>
      match store.branchToAdvance branch with
      | some file => (.ok file, store)
      | none => (.error (.unknownBranch branch), store))
    fun ok store => if ok && (store.branchToAdvance branch).isSome then none else lost

/-- **Set a branch's head**: read its file, and write it back with the new head. -/
def setBranchHeadOp (branch : BranchName) (head : OpId) (note : Store → Event)
    (lost : Option Event) : StoreProg Unit := do
  let file ← readBranchToAdvance branch lost
  access (fun store => (.ok (), store.writeBranch branch (file.advance head))) fun ok store =>
    if ok then some (note store) else lost

/-- Write the head back to what it was before a merge that is refused. -/
def rollBack (branch : BranchName) (headBefore : Option OpId) : StoreProg Unit :=
  match headBefore with
  | some prev =>
    setBranchHeadOp branch prev (fun store => .rolledBack branch (store.headOp branch) prev)
      (some (.rollbackLost branch))
  | none => pure ()

/-! ## Landing a merge -/

variable (env : Env)

/-- Read the head a merge goes back to. -/
def readHeadToMerge (branch : BranchName) : StoreProg (Option OpId) :=
  access (fun store => (.ok (store.headOp branch), store)) fun ok store =>
    if ok then some (.merging branch (store.headOp branch)) else none

/-- The stages a merge introduces: the ones it binds that the destination does not have already. -/
def mergeAttestable (branch : BranchName) : StageTransition → StoreProg (List StageId)
  | .merge entries => do
    let dst ← readHeadMap branch fun _ _ => none
    pure (entries.toList.filterMap fun entry =>
      entry.2.filter fun stage => dst[entry.1]? ≠ some stage)
  | t => pure (attestableStageIds t)

/-- Whether the merge's lock is computed at all: the destination's head is one of its parents, or
there is none. -/
def mergesLock (headBefore : Option OpId) (parents : List OpId) : Bool :=
  headBefore.all fun head => parents.contains head

/-- The verdict on a merge that has landed: the program its branch's head now names. -/
def judgeMerge (branch : BranchName) : StoreProg Unit := do
  -- the merged lock is committed first
  update id
  let head ← readHeadMap branch fun head map => some (.judged branch head map)
  query fun store => store.loadProgram head
  if ← typeCheck env head then pure () else throw .typeError

/-- **The gated write path of merges**: land the operation, type-check the head it gives, and write
the head back on a refusal. -/
def applyMergeOpGated (branch : BranchName) (op : Operation) (transition : StageTransition) :
    StoreProg OpId := do
  let headBefore ← readHeadToMerge branch
  let attestable ← mergeAttestable branch transition
  query fun _ =>
    if mergesLock headBefore op.parents && !env.locksAgree op.parents then
      .error .dependencyConflict
    else .ok ()
  let opId ← applyOperationAttesting env branch op transition attestable
  match ← attempt (judgeMerge env branch) with
  | .error e =>
    rollBack branch headBefore
    throw e
  | .ok () =>
    recordTypecheckPassed attestable opId
    pure opId

/-- Record a branch's files manifest. -/
def applySetFiles (branch : BranchName) (manifest : BlobId) (intentId : Option IntentId) :
    StoreProg OpId := do
  query fun _ =>
    if env.manifestOk manifest then .ok ()
    else .error (.invalidTransition ("invalid files manifest " ++ manifest))
  let headNow ← readHead branch
  applyOperation env branch (stampIntent (.new (.setFiles manifest) headNow.toList) intentId)
    .filesOnly

/-- A merge, and the manifest its two sides disagreed on. -/
def applyMergeOpGatedWithManifest (branch : BranchName) (op : Operation)
    (transition : StageTransition) (manifest : Option BlobId) (intentId : Option IntentId) :
    StoreProg OpId := do
  let headBefore ← readHead branch
  let mergeOpId ← applyMergeOpGated env branch op transition
  match manifest with
  | none => pure mergeOpId
  | some manifest =>
    match ← attempt (applySetFiles env branch manifest intentId) with
    | .ok opId => pure opId
    | .error e =>
      rollBack branch headBefore
      throw e

/-! ## Fast-forward pushes -/

/-- A head is set to `target` where `expected` was read. -/
def pushedTo (branch : BranchName) (expected : Option OpId) (target : OpId) (store : Store) : Event :=
  .pushed branch (store.headOp branch) expected target (store.log.get target).isSome

/-- How a push moved the head. -/
inductive BranchAdvance
  | created
  | upToDate
  | fastForward
  deriving DecidableEq

/-- Refuse a head that names a pair no store can hold. -/
def checkHeadSatisfiable (newHead : OpId) : StoreProg Unit :=
  query fun store => store.checkPairsSatisfiable (store.log.replay newHead).toList

/-- **Push a head**: create the branch, or move it forward along its own history. -/
def advanceBranchHeadFf (branch : BranchName) (newHead : OpId) : StoreProg BranchAdvance := do
  let current ← readHead branch
  match current with
  | none =>
    checkHeadSatisfiable newHead
    access
      (fun store =>
        (.ok .created,
          store.writeBranch branch (.fresh branch (some newHead) (some newHead))))
      fun ok store =>
        if ok then some (pushedTo branch none newHead store) else none
  | some cur =>
    if cur = newHead then pure .upToDate
    else
      let isFf ← query fun store =>
        .ok ((store.log.walkForward newHead none).any fun record => record.opId = cur)
      if isFf then
        checkHeadSatisfiable newHead
        setBranchHeadOp branch newHead (pushedTo branch (some cur) newHead) none
        pure .fastForward
      else throw (.nonFastForward branch cur newHead)

/-! ## Reporting and committing a merge -/

/-- Where a merged value comes from. -/
inductive MergeSide
  | src
  | dst
  | both
  | semantic
  deriving DecidableEq

/-- A sig a merge gave a stage. -/
structure MergeEntry where
  sigId : SigId
  stageId : StageId
  side : MergeSide

/-- A conflict left to resolve. -/
structure MergeConflict where
  sigId : SigId
  kind : ConflictKind
  base : Option StageId
  src : Option StageId
  dst : Option StageId

/-- **What a merge would do.** -/
structure MergeReport where
  base : Option OpId
  src : BranchName
  dst : BranchName
  merged : List MergeEntry
  conflicts : List MergeConflict
  removed : List SigId

/-- What one outcome adds to the report. -/
def MergeReport.add (semantic : SigId → StageId → StageId → StageId → Option StageId)
    (report : MergeReport) : MergeOutcome → MergeReport
  | .both sigId (some stageId) =>
    { report with merged := report.merged ++ [{ sigId, stageId, side := .both }] }
  | .both _ none => report
  | .src sigId (some stageId) =>
    { report with merged := report.merged ++ [{ sigId, stageId, side := .src }] }
  | .src sigId none => { report with removed := report.removed ++ [sigId] }
  | .dst sigId (some stageId) =>
    { report with merged := report.merged ++ [{ sigId, stageId, side := .dst }] }
  | .dst sigId none => { report with removed := report.removed ++ [sigId] }
  | .conflict sigId kind base src dst =>
    let unresolved := { report with
      conflicts := report.conflicts ++ [{ sigId, kind, base, src, dst }] }
    match kind, base, src, dst with
    | .modifyModify, some b, some s, some d =>
      -- two edits of one function may compose
      match semantic sigId b d s with
      | some stageId =>
        { report with merged := report.merged ++ [{ sigId, stageId, side := .semantic }] }
      | none => unresolved
    | _, _, _, _ => unresolved

/-- The report of a merge of two heads. -/
def mergeReport (semantic : SigId → StageId → StageId → StageId → Option StageId) (log : OpLog)
    (src dst : BranchName) (srcHead dstHead : Option OpId) : MergeReport :=
  let out := merge log srcHead dstHead
  out.outcomes.foldl (MergeReport.add semantic)
    { base := out.lca, src, dst, merged := [], conflicts := [], removed := [] }

/-- **Report a merge** of one branch into another. -/
def Store.merge (src dst : BranchName) : StoreProg MergeReport := do
  let srcHead ← readHead src
  let dstHead ← query fun store =>
    if dst ≠ defaultBranch ∧ store.getBranch dst = none then .error (.unknownBranch dst)
    else .ok (store.headOp dst)
  access
    (fun store =>
      (.ok (mergeReport (env.semanticMerge store dst) store.log src dst srcHead dstHead), store))
    fun ok store => if ok then some (.reported src dst srcHead dstHead store.log) else none

/-- The entries a commit pins: the merged values, the destination's own where it is said to have the
value, and nothing for the removed sigs. -/
def mergeEntries (dstMap : HeadMap) (report : MergeReport) :
    Std.ExtTreeMap SigId (Option StageId) :=
  let merged := report.merged.foldl
    (fun (entries : Std.ExtTreeMap SigId (Option StageId)) m =>
      entries.insert m.sigId
        (match m.side with
          | .dst | .both => dstMap[m.sigId]?
          | .src | .semantic => some m.stageId))
    ∅
  report.removed.foldl (fun entries sig => entries.insert sig none) merged

/-- Write one more line in a branch's journal: read the branch file, and write it back. -/
def journalMerge (dst : BranchName) (report : MergeReport) : StoreProg Unit := do
  let file ← query fun store =>
    match store.getBranch dst with
    | some file => .ok file
    | none => .error (.unknownBranch dst)
  if report.src ≠ "" then
    let line := { src := report.src, merged := report.merged.length, conflicts := 0 }
    access
      (fun store => (.ok (), store.writeBranch dst { file with merges := file.merges ++ [line] }))
      fun ok store =>
        if ok then some (.journaled dst (store.headOp dst) file.headOp) else none

/-- **Commit a reported merge.** -/
def commitMerge (dst : BranchName) (report : MergeReport) : StoreProg Unit := do
  if report.conflicts ≠ [] then
    throw (.invalidTransition
      (toString report.conflicts.length ++ " conflicts; resolve before committing"))
  let dstMap ← readHeadMap dst fun _ _ => none
  let entries := mergeEntries dstMap report
  let srcHead ← readHead report.src
  let dstHead ← readHead dst
  match srcHead, dstHead with
  | some s, none =>
    setBranchHeadOp dst s (pushedTo dst none s) none
  | some s, some d =>
    if s = d then pure ()
    else
      let _ ← applyMergeOpGated env dst (.new (.merge entries.size) [d, s]) (.merge entries)
      pure ()
  | none, _ => pure ()
  journalMerge dst report

/-! ## Branches and quarantines -/

/-- **Create a branch** at the head of another. -/
def createBranch (name source : BranchName) : StoreProg Unit := do
  if name = "" ∨ '/' ∈ name.toList ∨ '\\' ∈ name.toList then
    throw (.invalidTransition ("branch name `" ++ name ++ "` rejected (empty or path-like)"))
  query fun store =>
    if (store.getBranch name).isSome then
      .error (.invalidTransition ("branch `" ++ name ++ "` already exists"))
    else .ok ()
  let headOp ← readHead source
  access
    (fun store =>
      (.ok (), store.writeBranch name
        { name, parent := some source, headOp, merges := [], lastGateCheckpoint := none }))
    fun ok store => if ok then some (.created name (store.headOp name) headOp) else none

/-- Forget every branch's checkpoint. -/
def Store.invalidateGateCheckpoints (store : Store) : Store :=
  { store with
    branches := store.branches.map fun _ branch => { branch with lastGateCheckpoint := none } }

/-- **Quarantine a producer** from now on, and forget every checkpoint. -/
def retroBlock (toolId : ToolId) (reason : String) : StoreProg Unit := do
  putAttestation fun now =>
    { stageId := toolId, opId := none, kind := .producerBlock toolId reason now, result := .passed
      producedBy := { tool := "lex attest retro-block", model := none }, timestamp := now }
  update Store.invalidateGateCheckpoints

/-! ## The calls -/

/-- **A call of the store.** -/
inductive Call
  | applyOperation (branch : BranchName) (op : Operation) (transition : StageTransition)
  | planAndApply (branch : BranchName) (plan : HeadMap → Operation × StageTransition)
      (intent : Option Intent)
  | applyOperationGated (branch : BranchName) (op : Operation) (transition : StageTransition)
      (intent : Option Intent)
  | replaceMatchArm (branch : BranchName) (fromStageId : StageId) (matchNode : String)
      (armIndex : Nat) (sigId : SigId) (toStageId : StageId) (fromBudget toBudget : Option UInt64)
      (intent : Option Intent)
  | renameLocal (branch : BranchName) (fromStageId : StageId) (letNode oldName newName : String)
      (sigId : SigId) (toStageId : StageId) (fromBudget toBudget : Option UInt64)
      (intent : Option Intent)
  | inlineLet (branch : BranchName) (fromStageId : StageId) (letNode bindingName : String)
      (sigId : SigId) (toStageId : StageId) (fromBudget toBudget : Option UInt64)
      (intent : Option Intent)
  | promote (branch : BranchName) (candidateOpId : OpId) (budgetOf : StageId → Option UInt64)
  | publish (branch : BranchName) (program : HeadMap)
      (diffToOps : Store → HeadMap → Except StoreError (List OperationKind))
      (intentId : Option IntentId)
  | applyMergeOpGated (branch : BranchName) (op : Operation) (transition : StageTransition)
  | applyMergeOpGatedWithManifest (branch : BranchName) (op : Operation)
      (transition : StageTransition) (manifest : Option BlobId) (intentId : Option IntentId)
  | applySetFiles (branch : BranchName) (manifest : BlobId) (intentId : Option IntentId)
  | advanceBranchHeadFf (branch : BranchName) (newHead : OpId)
  | reportAndCommit (src dst : BranchName)
  | commitMerge (dst : BranchName) (report : MergeReport)
  | createBranch (name source : BranchName)
  | retroBlock (toolId : ToolId) (reason : String)

/-- What a call returns. -/
inductive Outcome
  | landed (opId : OpId)
  | published (outcome : PublishOutcome)
  | advanced (advance : BranchAdvance)
  | done
  deriving DecidableEq

/-- **The program of a call.** -/
def Call.prog : Call → StoreProg Outcome
  | .applyOperation branch op t => .landed <$> LexLang.applyOperation env branch op t
  | .planAndApply branch plan intent => .landed <$> LexLang.planAndApply env branch plan intent
  | .applyOperationGated branch op t intent =>
    .landed <$> applyOperationGatedWithIntent env branch op t intent
  | .replaceMatchArm branch fromStage node arm sig toStage fromBudget toBudget intent =>
    .landed <$> applyReplaceMatchArmWithIntent env branch fromStage node arm sig toStage
      fromBudget toBudget intent
  | .renameLocal branch fromStage node oldName newName sig toStage fromBudget toBudget intent =>
    .landed <$> applyRenameLocalWithIntent env branch fromStage node oldName newName sig toStage
      fromBudget toBudget intent
  | .inlineLet branch fromStage node bindingName sig toStage fromBudget toBudget intent =>
    .landed <$> applyInlineLetWithIntent env branch fromStage node bindingName sig toStage
      fromBudget toBudget intent
  | .promote branch candidate budgetOf => .landed <$> promoteCandidate env branch candidate budgetOf
  | .publish branch program diffToOps intentId =>
    .published <$> publishProgramWithIntent env branch program diffToOps intentId
  | .applyMergeOpGated branch op t => .landed <$> LexLang.applyMergeOpGated env branch op t
  | .applyMergeOpGatedWithManifest branch op t manifest intentId =>
    .landed <$> LexLang.applyMergeOpGatedWithManifest env branch op t manifest intentId
  | .applySetFiles branch manifest intentId =>
    .landed <$> LexLang.applySetFiles env branch manifest intentId
  | .advanceBranchHeadFf branch newHead => .advanced <$> LexLang.advanceBranchHeadFf branch newHead
  | .reportAndCommit src dst => do
    let report ← Store.merge env src dst
    LexLang.commitMerge env dst report
    pure .done
  | .commitMerge dst report => do
    LexLang.commitMerge env dst report
    pure .done
  | .createBranch name source => do
    LexLang.createBranch name source
    pure .done
  | .retroBlock toolId reason => do
    LexLang.retroBlock toolId reason
    pure .done

end LexLang
