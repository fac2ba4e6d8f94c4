/-
# LexLang.Store.Advance — landing operations on a branch, step by step

The write paths of `lex-store/src/store.rs` and `branches.rs` as programs of atomic steps on the store.
A step is one access to the store's files: reading a branch file, persisting an operation, writing
attestations, or the compare-and-swap of a branch head, which holds the branch's lock. Any access may
fail with an I/O error. Between two steps, other callers' steps can fall.

`casRetryAdvance` is the loop that every single operation goes through.
-/
import LexLang.Concurrent.Prog
import LexLang.Store.Gate

namespace LexLang

open LexLang.Vcs LexLang.Concurrent

/-! ## What the store is built with -/

/-- **What the store takes from elsewhere**: the digest operations are filed under, the type checker's
verdict on the program a head map names, whether the locks of a merge's parents agree, the merge of
two bodies of one function, and the check of a files manifest. -/
structure Env where
  digest : Digest
  typeChecks : HeadMap → Bool
  locksAgree : List OpId → Bool
  semanticMerge : Store → BranchName → SigId → StageId → StageId → StageId → Option StageId
  manifestOk : BlobId → Bool

/-! ## Steps, and what is seen of them -/

/-- **What can be seen of a run.** `found` is the head at the very step, the other heads are the ones
the caller had read or was given. -/
inductive Event
  /-- A caller read the head map that it plans from. -/
  | planned (branch : BranchName) (head : Option OpId) (map : HeadMap)
  /-- A candidate program passed the type check. -/
  | passed (candidate : HeadMap)
  /-- A merge commit read the head that it goes back to if it is refused. -/
  | merging (branch : BranchName) (head : Option OpId)
  /-- The compare-and-swap moved the head from `parent` to an operation, filed in the log as
  `filed`. -/
  | landed (branch : BranchName) (parent : Option OpId) (record filed : OperationRecord)
  /-- A merge commit read the head map to judge. -/
  | judged (branch : BranchName) (head : Option OpId) (map : HeadMap)
  /-- A merge commit that was refused wrote the head back. -/
  | rolledBack (branch : BranchName) (found : Option OpId) (target : OpId)
  /-- … or failed to. -/
  | rollbackLost (branch : BranchName)
  /-- The head was set by a push, or by a merge into a branch without a head; `known` when the log
  holds the operation. -/
  | pushed (branch : BranchName) (found expected : Option OpId) (target : OpId) (known : Bool)
  /-- A merge commit wrote its branch file back with one more line in the journal. -/
  | journaled (branch : BranchName) (found written : Option OpId)
  /-- A branch was created at a head. -/
  | created (branch : BranchName) (found head : Option OpId)
  /-- A merge was computed from two heads. -/
  | reported (src dst : BranchName) (srcHead dstHead : Option OpId) (log : OpLog)

/-- A program on the store that may fail. -/
abbrev StoreProg : Type → Type := ExceptT StoreError (Prog Store Event Bool)

variable {ρ : Type}

/-- One access to the store's files. The environment answers whether the I/O works; if not, nothing
changes. -/
def access (act : Store → Except StoreError ρ × Store) (label : Bool → Store → Option Event) :
    StoreProg ρ :=
  ExceptT.mk <| .atom (fun ok store => if ok then (act store).2 else store) label
    fun ok store => .ret (if ok then (act store).1 else .error .io)

/-- A read. -/
def query (read : Store → Except StoreError ρ) : StoreProg ρ :=
  access (fun store => (read store, store)) fun _ _ => none

/-- A write that cannot be refused. -/
def update (write : Store → Store) : StoreProg Unit :=
  access (fun store => (.ok (), write store)) fun _ _ => none

/-- Run a program and keep its error as a value. -/
def attempt (p : StoreProg ρ) : StoreProg (Except StoreError ρ) :=
  ExceptT.mk (p.run >>= fun result => .ret (.ok result))

/-- `get_branch(branch)?.and_then(|b| b.head_op)`. -/
def readHead (branch : BranchName) : StoreProg (Option OpId) :=
  query fun store => .ok (store.headOp branch)

/-- `branch_head(branch)?`, seen as `note` says. -/
def readHeadMap (branch : BranchName) (note : Option OpId → HeadMap → Option Event) :
    StoreProg HeadMap :=
  access
    (fun store =>
      match store.headView branch with
      | .ok (map, store') => (.ok map, store')
      | .error e => (.error e, store))
    fun ok store =>
      match ok, store.headView branch with
      | true, .ok (map, _) => note (store.headOp branch) map
      | _, _ => none

/-- The head map a caller plans from. -/
def planFrom (branch : BranchName) : StoreProg HeadMap :=
  readHeadMap branch fun head map => some (.planned branch head map)

/-- Put one attestation, stamped with the time of the call. -/
def putAttestation (stamp : Nat → Attestation) : StoreProg Unit :=
  update fun store =>
    { store with attestations := store.attestations.put (stamp store.clock) }

/-- Put attestations one after another. -/
def putAttestations : List (Nat → Attestation) → StoreProg Unit
  | [] => pure ()
  | stamp :: stamps => do
    putAttestation stamp
    putAttestations stamps

def recordTypecheckPassed (stageIds : List StageId) (opId : OpId) : StoreProg Unit :=
  putAttestations (stageIds.map (typecheckPassed opId))

/-- Write a stage under its sig, and index it. -/
def publishStage (sigId : SigId) (stageId : StageId) : StoreProg Unit :=
  update fun store =>
    { store with
      stageFiles := (sigId, stageId) :: store.stageFiles
      stageIndex := store.stageIndex.insertIfNew stageId sigId }

/-! ## Persist, gate, swap -/

variable (env : Env)

/-- Apply an operation against the head the caller read, and persist it. -/
def persistOpOnlyWithParent (branch : BranchName) (parent : Option OpId) (op : Operation)
    (transition : StageTransition) : StoreProg OperationRecord :=
  access
    (fun store =>
      if branch ≠ defaultBranch ∧ store.getBranch branch = none then
        (.error (.unknownBranch branch), store)
      else
        match apply env.digest store.log parent op transition with
        | .error e => (.error (.apply e), store)
        | .ok (record, log) => (.ok record, { store with log }))
    fun _ _ => none

/-- Run the attestation gates, and record the waivers. -/
def gate (branch : BranchName) (opId : OpId) (stageIds : List StageId) (effects : EffectSet) :
    StoreProg Unit := do
  let waivers ← query fun store => store.runRequiredAttestationsGate branch opId stageIds effects
  putAttestations (waivers.map (trustWaived opId))

/-- How a compare-and-swap ends. -/
inductive CasResult
  | ok
  | mismatch (actual : Option OpId)
  | unknownBranch (name : BranchName)
  | io
  deriving DecidableEq

/-- The branch file to write a head into; the default branch has one even when it has no file. -/
def Store.branchToAdvance (store : Store) (name : BranchName) : Option Branch :=
  (store.getBranch name).or
    (if name = defaultBranch then some (.fresh defaultBranch none none) else none)

/-- The branch file with a new head, which is the gate's new checkpoint as well. -/
def Branch.advance (branch : Branch) (head : OpId) : Branch :=
  { branch with headOp := some head, lastGateCheckpoint := some head }

/-- Write a branch file. -/
def Store.writeBranch (store : Store) (name : BranchName) (branch : Branch) : Store :=
  { store with branches := store.branches.insert name branch }

/-- What the compare-and-swap finds. -/
def Store.casOutcome (store : Store) (name : BranchName) (expected : Option OpId) : CasResult :=
  if store.headOp name ≠ expected then .mismatch (store.headOp name)
  else if (store.branchToAdvance name).isSome then .ok
  else .unknownBranch name

/-- What it leaves. -/
def Store.casWrite (store : Store) (name : BranchName) (expected : Option OpId) (new : OpId) :
    Store :=
  match store.casOutcome name expected, store.branchToAdvance name with
  | .ok, some branch => store.writeBranch name (branch.advance new)
  | _, _ => store

/-- **Compare and swap** the head, under the branch's lock. -/
def setBranchHeadOpCas (branch : BranchName) (expected : Option OpId) (record : OperationRecord) :
    StoreProg CasResult :=
  ExceptT.mk <| .atom
    (fun ok store => if ok then store.casWrite branch expected record.opId else store)
    (fun ok store =>
      if ok && store.casOutcome branch expected = .ok then
        some (.landed branch expected record ((store.log.get record.opId).getD record))
      else none)
    fun ok store => .ret (.ok (if ok then store.casOutcome branch expected else .io))

/-- How often the swap is tried. -/
def maxAttempts : Nat := 32

/-- A stale parent. -/
def StoreError.isStaleParent : StoreError → Bool
  | .apply (.staleParent _ _) => true
  | _ => false

/-- Operations with at most one parent can be rebuilt on another head. -/
def Operation.isRebuildable (op : Operation) : Bool := decide (op.parents.length ≤ 1)

/-- The operation to try next: on a retry, or when it came without parents, the caller's operation
rebuilt on the head that was read. -/
def rebuild (op currentOp : Operation) (parent : Option OpId) (rebuiltAlready : Bool) : Operation :=
  if Operation.isRebuildable op &&
      (rebuiltAlready || currentOp.parents.isEmpty && parent.isSome) then
    { op with parents := parent.toList }
  else currentOp

/-- The retry loop: read the head, persist, run the hook, swap. -/
def casAttempts (branch : BranchName) (op : Operation) (transition : StageTransition)
    (hook : OperationRecord → StoreProg Unit) :
    Nat → Operation → Bool → Option StoreError → StoreProg OpId
  | 0, _, _, lastIoErr => throw (lastIoErr.getD (.contention branch maxAttempts))
  | attempts + 1, currentOp, rebuiltAlready, lastIoErr => do
    let parent ← readHead branch
    let currentOp := rebuild op currentOp parent rebuiltAlready
    match ← attempt (persistOpOnlyWithParent env branch parent currentOp transition) with
    | .error e =>
      -- the head moved between the read and the persist of a rebuilt operation
      if e.isStaleParent && Operation.isRebuildable op && rebuiltAlready then
        casAttempts branch op transition hook attempts currentOp true lastIoErr
      else throw e
    | .ok record =>
      hook record
      match ← setBranchHeadOpCas branch parent record with
      | .ok => pure record.opId
      | .mismatch _ =>
        if Operation.isRebuildable op then
          casAttempts branch op transition hook attempts currentOp true lastIoErr
        else throw (.contention branch 1)
      | .unknownBranch name => throw (.unknownBranch name)
      | .io =>
        casAttempts branch op transition hook attempts currentOp rebuiltAlready (some .io)

/-- **Land an operation**: retried on whatever head it finds if it has at most one parent, tried once
otherwise. -/
def casRetryAdvance (branch : BranchName) (op : Operation) (transition : StageTransition)
    (hook : OperationRecord → StoreProg Unit) : StoreProg OpId := do
  query fun store => store.checkPairsSatisfiable (boundPairs transition)
  casAttempts env branch op transition hook maxAttempts op false none

/-! ## Single operations -/

def applyOperationAttesting (branch : BranchName) (op : Operation) (transition : StageTransition)
    (attestable : List StageId) : StoreProg OpId :=
  casRetryAdvance env branch op transition fun record =>
    gate branch record.opId attestable (opDeclaredEffects op.kind)

def applyOperation (branch : BranchName) (op : Operation) (transition : StageTransition) :
    StoreProg OpId :=
  applyOperationAttesting env branch op transition (attestableStageIds transition)

/-- The type check of a candidate. -/
def typeCheck (candidate : HeadMap) : StoreProg Bool :=
  access (fun store => (.ok (env.typeChecks candidate), store)) fun ok _ =>
    if ok && env.typeChecks candidate then some (.passed candidate) else none

/-- Record the caller's intent, if there is one. -/
def recordIntent : Option Intent → StoreProg Unit
  | some intent => update fun store => { store with intents := store.intents.put intent }
  | none => pure ()

/-- **The gated write path**: type-check the candidate, check the session budget, record the intent,
and land the operation. -/
def applyOperationCheckedWithIntent (branch : BranchName) (op : Operation)
    (transition : StageTransition) (candidate : HeadMap) (intent : Option Intent) :
    StoreProg OpId := do
  let attestable := attestableStageIds transition
  if ← typeCheck env candidate then
    query fun store => store.checkSessionBudget op
    recordIntent intent
    casRetryAdvance env branch op transition fun record => do
      recordTypecheckPassed attestable record.opId
      gate branch record.opId attestable (opDeclaredEffects op.kind)
  else
    -- the hints are best effort
    let _ ← attempt (putAttestations (attestable.map (repairHint (op.opId env.digest))))
    throw .typeError

/-- The program that would exist on the branch after the transition. -/
def candidateProgramFor (branch : BranchName) (transition : StageTransition) :
    StoreProg HeadMap := do
  let head ← planFrom branch
  let candidate := applyTransition head transition
  query fun store => store.loadProgram candidate
  pure candidate

/-- The write path of a caller that holds an operation and its transition. -/
def applyOperationGatedWithIntent (branch : BranchName) (op : Operation)
    (transition : StageTransition) (intent : Option Intent) : StoreProg OpId := do
  let candidate ← candidateProgramFor branch transition
  applyOperationCheckedWithIntent env branch op transition candidate intent

/-- The write path of a caller that plans its operation from the head map it reads, and hands in the
candidate itself. -/
def planAndApply (branch : BranchName) (plan : HeadMap → Operation × StageTransition)
    (intent : Option Intent) : StoreProg OpId := do
  let head ← planFrom branch
  let (op, transition) := plan head
  applyOperationCheckedWithIntent env branch op transition (applyTransition head transition) intent

/-- Stamp an operation. -/
def stampIntent (op : Operation) : Option IntentId → Operation
  | some id => op.withIntent id
  | none => op

/-! ## Transforms and promotion -/

/-- **A typed transform of one stage** of the branch, under its own name and operation kind. The pure
rewriting of the stage's AST is represented by the sig it hashes to and the stage it gives. -/
def applyTransform (name : String) (kind : OperationKind) (branch : BranchName)
    (fromStageId : StageId) (sigId : SigId) (toStageId : StageId) (intent : Option Intent) :
    StoreProg OpId := do
  query fun store =>
    if store.stageReadable fromStageId then .ok () else .error (.unknownStage fromStageId)
  publishStage sigId toStageId
  if toStageId = fromStageId then
    throw (.invalidTransition (name ++ " produced the same stage_id `" ++ fromStageId ++ "`"))
  let head ← planFrom branch
  query fun store => store.loadOthers head sigId
  if ¬ head.contains sigId then
    throw (.invalidTransition ("sig `" ++ sigId ++ "` not on branch `" ++ branch ++ "`'s head"))
  let headNow ← readHead branch
  let op := stampIntent (.new kind headNow.toList) (intent.map Intent.intentId)
  applyOperationCheckedWithIntent env branch op (.replace sigId fromStageId toStageId)
    (head.insert sigId toStageId) intent

def applyReplaceMatchArmWithIntent (branch : BranchName) (fromStageId : StageId)
    (matchNode : String) (armIndex : Nat) (sigId : SigId) (toStageId : StageId)
    (fromBudget toBudget : Option UInt64) (intent : Option Intent) : StoreProg OpId :=
  applyTransform env "replace_match_arm"
    (.replaceMatchArm sigId fromStageId toStageId matchNode armIndex fromBudget toBudget)
    branch fromStageId sigId toStageId intent

def applyRenameLocalWithIntent (branch : BranchName) (fromStageId : StageId)
    (letNode oldName newName : String) (sigId : SigId) (toStageId : StageId)
    (fromBudget toBudget : Option UInt64) (intent : Option Intent) : StoreProg OpId :=
  applyTransform env "rename_local"
    (.renameLocal sigId fromStageId toStageId letNode oldName newName fromBudget toBudget)
    branch fromStageId sigId toStageId intent

def applyInlineLetWithIntent (branch : BranchName) (fromStageId : StageId)
    (letNode bindingName : String) (sigId : SigId) (toStageId : StageId)
    (fromBudget toBudget : Option UInt64) (intent : Option Intent) : StoreProg OpId :=
  applyTransform env "inline_let"
    (.inlineLet sigId fromStageId toStageId letNode bindingName fromBudget toBudget)
    branch fromStageId sigId toStageId intent

/-- The live candidates for a sig: the ones no promotion of that sig picked or superseded. -/
def Store.listCandidates (store : Store) (sigId : SigId) : List (OpId × StageId) :=
  let all := store.log.records.toList.map Prod.snd
  let referenced := all.flatMap fun record =>
    match record.op.kind with
    | .promote s winner _ supersedes _ _ _ => if s = sigId then winner :: supersedes else []
    | _ => []
  all.filterMap fun record =>
    match record.op.kind with
    | .candidate s stageId =>
      if s = sigId ∧ record.opId ∉ referenced then some (record.opId, stageId) else none
    | _ => none

/-- The sig and stage of the candidate to promote. -/
def Store.candidateToPromote (store : Store) (candidateOpId : OpId) :
    Except StoreError (SigId × StageId) :=
  match store.log.get candidateOpId with
  | none => .error (.unknownOp candidateOpId)
  | some record =>
    match record.op.kind with
    | .candidate sigId stageId =>
      if latestReviewVerdict store.attestations stageId = some .reject then
        .error (.invalidTransition
          ("candidate `" ++ candidateOpId ++ "` has a standing Reject review on stage `" ++
            stageId ++ "`; record an Approve review (or promote a different candidate) " ++
            "before promoting"))
      else .ok (sigId, stageId)
    | _ => .error (.invalidTransition ("op `" ++ candidateOpId ++ "` is not a Candidate"))

/-- **Make a candidate the head of its sig.** -/
def promoteCandidate (branch : BranchName) (candidateOpId : OpId)
    (budgetOf : StageId → Option UInt64) : StoreProg OpId := do
  let (sigId, winner) ← query fun store => store.candidateToPromote candidateOpId
  let live ← query fun store => .ok (store.listCandidates sigId)
  let supersedes := sortedSet ((live.map Prod.fst).filter fun id => id ≠ candidateOpId)
  let head ← planFrom branch
  query fun store => if store.stageReadable winner then .ok () else .error (.unknownStage winner)
  query fun store => store.loadOthers head sigId
  let fromStageId := head[sigId]?
  let headNow ← readHead branch
  let kind := .promote sigId candidateOpId winner supersedes fromStageId
    (fromStageId.bind budgetOf) (budgetOf winner)
  let transition :=
    match fromStageId with
    | some fromStage => .replace sigId fromStage winner
    | none => .create sigId winner
  applyOperationCheckedWithIntent env branch (.new kind headNow.toList) transition
    (head.insert sigId winner) none

/-! ## Publishing a program -/

/-- The sig under which an operation's stage is published. -/
def stageForKind : OperationKind → Option SigId
  | .changeEffectSig sigId _ _ _ _ _ _ toSigId | .modifyBody sigId _ _ _ _ toSigId
  | .modifyType sigId _ _ toSigId => some (toSigId.getD sigId)
  | .addFunction sigId _ _ _ _ | .addType sigId _ _ => some sigId
  | .renameSymbol _ toSig _ _ => some toSig
  | _ => none

/-- Write the stage an operation of the batch needs, if the program has it. -/
def publishStageOf (program : HeadMap) (kind : OperationKind) : StoreProg Unit :=
  match (stageForKind kind).bind fun sigId => program[sigId]?.map fun stage => (sigId, stage) with
  | some (sigId, stageId) => publishStage sigId stageId
  | none => pure ()

/-- One operation of a publish: write its stage, check what it binds, land it, attest it. -/
def publishOp (branch : BranchName) (program : HeadMap) (intentId : Option IntentId)
    (kind : OperationKind) : StoreProg OpId := do
  publishStageOf program kind
  let transition := transitionForKind kind
  query fun store => store.checkPairsWritten (boundPairs transition)
  let headNow ← readHead branch
  let opId ← applyOperation env branch (stampIntent (.new kind headNow.toList) intentId) transition
  recordTypecheckPassed (attestableStageIds transition) opId
  pure opId

/-- The operations of a publish, one after another. -/
def publishOps (branch : BranchName) (program : HeadMap) (intentId : Option IntentId) :
    List OperationKind → StoreProg (List OpId)
  | [] => pure []
  | kind :: kinds => do
    let opId ← publishOp env branch program intentId kind
    let rest ← publishOps branch program intentId kinds
    pure (opId :: rest)

/-- What a publish returns. -/
structure PublishOutcome where
  ops : List OpId
  headOp : Option OpId
  deriving DecidableEq

/-- **Publish a program**: type-check it, plan the operations that lead to it from the branch's head
map, and land them one by one. `diffToOps` is what the head map, the diff and the imports come to. -/
def publishProgramWithIntent (branch : BranchName) (program : HeadMap)
    (diffToOps : Store → HeadMap → Except StoreError (List OperationKind))
    (intentId : Option IntentId) : StoreProg PublishOutcome := do
  if ← typeCheck env program then
    let oldHead ← planFrom branch
    let kinds ← query fun store => diffToOps store oldHead
    let ops ← publishOps env branch program intentId kinds
    -- the documentation of every declaration is written last
    update id
    match ops.getLast? with
    | some opId => pure { ops, headOp := some opId }
    | none =>
      let headOp ← readHead branch
      pure { ops, headOp }
  else throw .typeError

end LexLang
