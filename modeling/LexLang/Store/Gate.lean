/-
# LexLang.Store.Gate — what an advance is checked against

The store's checks on an operation before the head moves (`lex-store/src/store.rs`,
`lex-store/src/budget.rs`): the stages a transition binds must not be filed under another sig
(`checkPairsSatisfiable`); the session's spend over everything reachable from a branch head must stay
within its cap (`checkSessionBudget`); and the attestation gates must pass on the operation and on its
ancestors since the branch's checkpoint (`runRequiredAttestationsGate`).
-/
import LexLang.Store.WellFormed

namespace LexLang

open LexLang.Vcs

/-! ## What an operation binds, declares and spends -/

/-- The sig and stage an operation produces. -/
def producedSigStage : StageTransition → Option (SigId × StageId)
  | .create sigId stageId => some (sigId, stageId)
  | .replace sigId _ toStage => some (sigId, toStage)
  | .rename _ toSig bodyStageId => some (toSig, bodyStageId)
  | .remove _ _ | .importOnly | .filesOnly | .merge _ => none

/-- Every pair of sig and stage a transition puts at the head. -/
def boundPairs : StageTransition → List (SigId × StageId)
  | .merge entries => entries.toList.filterMap fun entry => entry.2.map fun stage => (entry.1, stage)
  | t => (producedSigStage t).toList

/-- The stages whose attestations an advance is judged by. -/
def attestableStageIds : StageTransition → List StageId
  | .create _ stageId => [stageId]
  | .replace _ _ toStage => [toStage]
  | .rename _ _ bodyStageId => [bodyStageId]
  | .merge entries => entries.toList.filterMap Prod.snd
  | .remove _ _ | .importOnly | .filesOnly => []

/-- The effects an operation declares. -/
def opDeclaredEffects : OperationKind → EffectSet
  | .addFunction _ _ effects _ _ => effects
  | .changeEffectSig _ _ _ _ toEffects _ _ _ => toEffects
  | _ => ∅

/-- What an operation spends: only increases of a declared budget count. -/
def monotonicSpendOf (kind : OperationKind) : UInt64 :=
  match kind.budgetDelta with
  | (none, some n) => n
  | (some f, some t) => if f < t then t - f else 0
  | _ => 0

/-- `u64::saturating_add`. -/
def saturatingAdd (a b : UInt64) : UInt64 :=
  if a.toNat + b.toNat < UInt64.size then a + b else UInt64.ofNat (UInt64.size - 1)

/-- One session's entry in the ledger. -/
structure SessionBudget where
  sessionId : SessionId
  spent : UInt64
  opCount : Nat
  cap : Option UInt64
  remaining : Option Int

namespace Store

variable (store : Store)

/-! ## Stage files -/

/-- Whether the store holds the stage under the sig. -/
def stageFileExists (sigId : SigId) (stageId : StageId) : Bool :=
  store.stageFiles.contains (sigId, stageId)

/-- Whether the stage can be read: it is indexed under a sig that holds it. -/
def stageReadable (stageId : StageId) : Bool :=
  store.stageIndex[stageId]?.any fun owner => store.stageFileExists owner stageId

/-- The sig a stage is filed under, when that is provably not `sigId`. -/
def unsatisfiableOwner (sigId : SigId) (stageId : StageId) : Option SigId :=
  if store.stageFileExists sigId stageId then none
  else
    store.stageIndex[stageId]?.filter fun owner =>
      owner != sigId && store.stageFileExists owner stageId

/-- Refuse the first pair that no store can hold. -/
def checkPairsSatisfiable (pairs : List (SigId × StageId)) : Except StoreError Unit :=
  match pairs.findSome? fun pair =>
    (store.unsatisfiableOwner pair.1 pair.2).map (StoreError.unsatisfiablePair pair.1 pair.2) with
  | some e => .error e
  | none => .ok ()

/-- Refuse a pair a publish binds but has not written. -/
def checkPairsWritten (pairs : List (SigId × StageId)) : Except StoreError Unit :=
  match pairs.find? fun pair => !store.stageFileExists pair.1 pair.2 with
  | some (sigId, stageId) =>
    match store.unsatisfiableOwner sigId stageId with
    | some owner => .error (.unsatisfiablePair sigId stageId owner)
    | none => .error (.unknownStage stageId)
  | none => .ok ()

/-- Load every declaration a head map names. -/
def loadProgram (map : HeadMap) : Except StoreError Unit :=
  match map.toList.find? fun pair => !store.stageFileExists pair.1 pair.2 with
  | some (_, stageId) => .error (.unknownStage stageId)
  | none => .ok ()

/-- Load every declaration of a head map but `sigId`'s, stage by stage. -/
def loadOthers (map : HeadMap) (sigId : SigId) : Except StoreError Unit :=
  match map.toList.find? fun pair => pair.1 != sigId && !store.stageReadable pair.2 with
  | some (_, stageId) => .error (.unknownStage stageId)
  | none => .ok ()

/-! ## The session ledger -/

/-- Add the records of one branch that no earlier branch had. -/
def addRecords (records : List OperationRecord) (walk : List OperationRecord) :
    List OperationRecord :=
  walk.foldl
    (fun records record =>
      if records.any fun r => r.opId = record.opId then records else records ++ [record])
    records

/-- The operations reachable from any branch head, each once. -/
def reachableRecords : List OperationRecord :=
  store.branches.toList.foldl
    (fun records entry =>
      match entry.2.headOp with
      | some head => addRecords records (store.log.walkBack head none)
      | none => records)
    []

/-- The session an operation is attributed to: its intent's, if the intent is recorded. -/
def sessionOf (op : Operation) : Option SessionId :=
  op.intentId.bind fun id => (store.intents.get id).map Intent.sessionId

/-- The policy in force. -/
def policyInForce : PolicyFile := store.policy.getD .default

/-- The cap of a session. -/
def sessionBudgetCap (sessionId : SessionId) : Option UInt64 :=
  store.policyInForce.sessionBudgets.capFor sessionId

/-- Add one operation to the buckets. -/
def tally (buckets : Std.ExtTreeMap SessionId (UInt64 × Nat)) (record : OperationRecord) :
    Std.ExtTreeMap SessionId (UInt64 × Nat) :=
  match store.sessionOf record.op with
  | none => buckets
  | some sessionId =>
    let increment := monotonicSpendOf record.op.kind
    if increment = 0 then buckets
    else
      let entry := buckets[sessionId]?.getD (0, 0)
      buckets.insert sessionId (entry.1 + increment, entry.2 + 1)

/-- **The ledger**: one entry for each session that spent anything. -/
def allSessionBudgets : List SessionBudget :=
  (store.reachableRecords.foldl store.tally ∅).toList.map fun (sessionId, spent, opCount) =>
    let cap := store.sessionBudgetCap sessionId
    { sessionId, spent, opCount, cap, remaining := cap.map fun c => (c.toNat : Int) - spent.toNat }

/-- One session's entry; a session that spent nothing has an empty one. -/
def sessionBudget (sessionId : SessionId) : SessionBudget :=
  match store.allSessionBudgets.find? fun entry => entry.sessionId = sessionId with
  | some entry => entry
  | none =>
    let cap := store.sessionBudgetCap sessionId
    { sessionId, spent := 0, opCount := 0, cap, remaining := cap.map fun c => (c.toNat : Int) }

/-- **The session-budget gate.** An operation without an intent, or whose intent is not recorded, or
whose session has no cap, passes. -/
def checkSessionBudget (op : Operation) : Except StoreError Unit :=
  match store.sessionOf op with
  | none => .ok ()
  | some sessionId =>
    match store.sessionBudgetCap sessionId with
    | none => .ok ()
    | some cap =>
      let spentAfter :=
        saturatingAdd (store.sessionBudget sessionId).spent (monotonicSpendOf op.kind)
      if cap < spentAfter then .error (.budgetExceeded sessionId cap spentAfter) else .ok ()

/-! ## The attestation gates -/

/-- Walk a branch from its head back to its checkpoint, exclusive, and collect what the gate has to
look at. Nothing when the checkpoint is the head. -/
def collectAncestorCandidates (name : BranchName) : List GateCandidate :=
  match store.getBranch name with
  | none => []
  | some branch =>
    match branch.headOp with
    | none => []
    | some head =>
      if some head = branch.lastGateCheckpoint then []
      else
        ((store.log.walkBack head none).takeWhile fun record =>
            some record.opId ≠ branch.lastGateCheckpoint).flatMap fun record =>
          gateCandidates record.opId (attestableStageIds record.produces)
            (opDeclaredEffects record.op.kind)

/-- **The attestation gates** on an operation about to land: the producer-block gate on it and its
ancestors since the checkpoint, then the required attestations on it alone. -/
def runRequiredAttestationsGate (name : BranchName) (opId : OpId) (stageIds : List StageId)
    (opEffects : EffectSet) : Except StoreError (List TrustWaiver) :=
  let newOp := gateCandidates opId stageIds opEffects
  match checkProducerBlock store.attestations (store.collectAncestorCandidates name ++ newOp) with
  | .error blocked => .error (.producerBlocked blocked)
  | .ok () =>
    match checkRequiredAttestations store.attestations newOp store.policyInForce with
    | .error blocked => .error (.branchAdvanceBlocked blocked)
    | .ok waivers => .ok waivers

end Store

/-! ## The attestations the store writes itself -/

/-- A verdict of the write-time type check. -/
def typecheckPassed (opId : OpId) (stageId : StageId) (now : Nat) : Attestation :=
  { stageId, opId := some opId, kind := .typeCheck, result := .passed
    producedBy := { tool := "lex-store", model := none }, timestamp := now }

/-- A hint left on a stage whose operation did not type-check. -/
def repairHint (failedOpId : OpId) (stageId : StageId) (now : Nat) : Attestation :=
  { stageId, opId := none, kind := .repairHint failedOpId
    result := .failed s!"op {failedOpId} rejected"
    producedBy := { tool := "lex-store::repair_hint", model := none }, timestamp := now }

/-- The record of a requirement that trust waived. -/
def trustWaived (opId : OpId) (waiver : TrustWaiver) (now : Nat) : Attestation :=
  { stageId := waiver.stageId, opId := some opId
    kind := .trustWaived waiver.producer waiver.scoreThousandths waiver.thresholdThousandths
      waiver.kindTag
    result := .passed
    producedBy := { tool := "lex-store::trust_waived", model := none }, timestamp := now }

end LexLang
