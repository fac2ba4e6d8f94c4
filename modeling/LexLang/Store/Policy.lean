/-
# LexLang.Store.Policy — the policy file and the two attestation gates

`policy.json` (`lex-store/src/policy.rs`): per-session budget caps, and the attestations an advance
must carry. The gates run over candidates `(op, stage, effects)`, one for every attestable stage of
the operations in question, or one without a stage when there is none.
-/
import LexLang.Vcs.Attestation

namespace LexLang

open LexLang.Vcs
open Std

/-! ## The policy file -/

/-- Per-session budget caps: a default, and overrides of which `none` means unbounded. -/
structure SessionBudgetPolicy where
  defaultCap : Option UInt64
  overrides : ExtTreeMap SessionId (Option UInt64)

/-- The cap of a session. -/
def SessionBudgetPolicy.capFor (policy : SessionBudgetPolicy) (sessionId : SessionId) :
    Option UInt64 :=
  match policy.overrides[sessionId]? with
  | some explicit => explicit
  | none => policy.defaultCap

/-- The attestation kinds that can be required. -/
inductive RequiredAttestationKind
  | typeCheck
  | spec
  | sandboxRun
  | examples
  | diffBody
  | effectAudit
  deriving DecidableEq

/-- Whether an attestation is of a required kind, whatever its payload. -/
def RequiredAttestationKind.matches : RequiredAttestationKind → AttestationKind → Bool
  | .typeCheck, .typeCheck => true
  | .spec, .spec _ => true
  | .sandboxRun, .sandboxRun _ => true
  | .examples, .examples _ _ => true
  | .diffBody, .diffBody _ _ => true
  | .effectAudit, .effectAudit => true
  | _, _ => false

/-- The name of a required kind in the policy file. -/
def RequiredAttestationKind.tag : RequiredAttestationKind → String
  | .typeCheck => "type_check"
  | .spec => "spec"
  | .sandboxRun => "sandbox_run"
  | .examples => "examples"
  | .diffBody => "diff_body"
  | .effectAudit => "effect_audit"

/-- When a requirement applies. -/
inductive AttestationCondition
  | always
  | effectsIntersect (needed : EffectSet)

/-- Whether a requirement applies to an operation with these effects. -/
def AttestationCondition.applies : AttestationCondition → EffectSet → Bool
  | .always, _ => true
  | .effectsIntersect needed, opEffects => opEffects.toList.any fun effect => needed.contains effect

/-- One required attestation, waived while a live producer is trusted above the threshold. -/
structure RequiredAttestation where
  kind : RequiredAttestationKind
  when : AttestationCondition
  skipIfProducerTrustThousandthsAbove : Option Nat

/-- The policy file, as far as the write paths read it. -/
structure PolicyFile where
  requiredAttestations : List RequiredAttestation
  sessionBudgets : SessionBudgetPolicy

/-- The policy of a store without a policy file. -/
def PolicyFile.default : PolicyFile where
  requiredAttestations := []
  sessionBudgets := { defaultCap := none, overrides := ∅ }

/-! ## The producer-block gate -/

/-- What a gate looks at: an operation, one of its stages if it has any, and its effects. -/
abbrev GateCandidate := OpId × Option StageId × EffectSet

/-- One candidate for every stage of an operation, or one without a stage. -/
def gateCandidates (opId : OpId) (stages : List StageId) (effects : EffectSet) :
    List GateCandidate :=
  if stages.isEmpty then [(opId, none, effects)]
  else stages.map fun stage => (opId, some stage, effects)

/-- A stage that carries an attestation by a quarantined tool. -/
structure ProducerBlocked where
  opId : OpId
  stageId : StageId
  toolId : ToolId
  blockedAt : Nat
  offending : Attestation
  deriving DecidableEq

/-- A block or unblock verdict on a tool. -/
def AttestationKind.isProducerVerdict : AttestationKind → Bool
  | .producerBlock _ _ _ | .producerUnblock _ _ _ => true
  | _ => false

/-- An unblock verdict. -/
def AttestationKind.isUnblock : AttestationKind → Bool
  | .producerUnblock _ _ _ => true
  | _ => false

/-- The order verdicts are read in: by time, and at the same second an unblock last. -/
def verdictLe (a b : Attestation) : Bool :=
  a.timestamp < b.timestamp ||
    a.timestamp == b.timestamp &&
      (!AttestationKind.isUnblock a.kind || AttestationKind.isUnblock b.kind)

/-- The tools that are quarantined, each with the time its block starts at. -/
def activeBlocks (log : AttestationLog) : ExtTreeMap ToolId Nat :=
  (log.insertionSort fun a b => verdictLe a b).foldl
    (fun active a =>
      match a.kind with
      | .producerBlock toolId _ blockedAt => active.insert toolId blockedAt
      | .producerUnblock toolId _ _ => active.erase toolId
      | _ => active)
    ∅

/-- The block an attestation falls under: its tool is quarantined since before it was produced. A
tool's own verdicts are filed under the tool's name and are no contamination. -/
def blockOn (active : ExtTreeMap ToolId Nat) (a : Attestation) : Option Nat :=
  if AttestationKind.isProducerVerdict a.kind then none
  else active[a.producedBy.tool]?.filter fun blockedAt => blockedAt ≤ a.timestamp

/-- The first offending attestation of a candidate. -/
def producerBlockOf (log : AttestationLog) (active : ExtTreeMap ToolId Nat) :
    GateCandidate → Option ProducerBlocked
  | (_, none, _) => none
  | (opId, some stageId, _) =>
    (log.listForStage stageId).findSome? fun a =>
      (blockOn active a).map fun blockedAt =>
        { opId, stageId, toolId := a.producedBy.tool, blockedAt, offending := a }

/-- **The producer-block gate**: refuse when a stage carries an attestation by a quarantined tool. -/
def checkProducerBlock (log : AttestationLog) (candidate : List GateCandidate) :
    Except ProducerBlocked Unit :=
  match candidate.findSome? (producerBlockOf log (activeBlocks log)) with
  | some blocked => .error blocked
  | none => .ok ()

/-! ## The required-attestations gate -/

/-- A requirement an advance does not meet. -/
structure BranchAdvanceBlocked where
  opId : OpId
  stageId : StageId
  missing : List String
  deriving DecidableEq

/-- A requirement that trust waived. -/
structure TrustWaiver where
  stageId : StageId
  producer : ToolId
  scoreThousandths : Nat
  thresholdThousandths : Nat
  kindTag : String
  deriving DecidableEq

/-- The latest trust score recorded for every tool, with its time. -/
def latestTrust (log : AttestationLog) : ExtTreeMap ToolId (Nat × Nat) :=
  log.foldl
    (fun latest a =>
      match a.kind with
      | .producerTrust toolId score =>
        if (latest[toolId]?.getD (0, 0)).1 ≤ a.timestamp then
          latest.insert toolId (a.timestamp, score)
        else latest
      | _ => latest)
    ∅

/-- The tool with the highest trust that is not quarantined. -/
def maxLiveProducerTrust (log : AttestationLog) : Option (ToolId × Nat) :=
  (latestTrust log).toList.foldl
    (fun best entry =>
      if (activeProducerBlock log entry.1).isSome then best
      else
        match best with
        | none => some (entry.1, entry.2.2)
        | some (_, score) => if score < entry.2.2 then some (entry.1, entry.2.2) else best)
    none

/-- The waiver of a rule on a stage, when the trust ceiling is above the rule's threshold. -/
def waiverOf (ceiling : Option (ToolId × Nat)) (stageId : StageId) (rule : RequiredAttestation) :
    Option TrustWaiver := do
  let threshold ← rule.skipIfProducerTrustThousandthsAbove
  let (producer, score) ← ceiling
  if threshold < score then
    some { stageId, producer, scoreThousandths := score, thresholdThousandths := threshold,
           kindTag := rule.kind.tag }
  else none

/-- Whether the stage carries a passed attestation of the rule's kind for this operation. -/
def satisfiesRule (log : AttestationLog) (opId : OpId) (stageId : StageId)
    (rule : RequiredAttestation) : Bool :=
  (log.listForStage stageId).any fun a =>
    a.opId = some opId && rule.kind.matches a.kind && decide (a.result = .passed)

/-- The rules that apply to an operation with these effects. -/
def PolicyFile.rulesFor (policy : PolicyFile) (effects : EffectSet) : List RequiredAttestation :=
  policy.requiredAttestations.filter fun rule => rule.when.applies effects

/-- **The required-attestations gate** on one candidate: its waivers, or the kinds it lacks. -/
def checkCandidate (log : AttestationLog) (policy : PolicyFile) :
    GateCandidate → Except BranchAdvanceBlocked (List TrustWaiver)
  | (_, none, _) => .ok []
  | (opId, some stageId, effects) =>
    let ceiling := maxLiveProducerTrust log
    let rules := policy.rulesFor effects
    let missing := rules.filter fun rule =>
      (waiverOf ceiling stageId rule).isNone && !satisfiesRule log opId stageId rule
    if missing.isEmpty then .ok (rules.filterMap (waiverOf ceiling stageId))
    else .error { opId, stageId, missing := sortedSet (missing.map fun rule => rule.kind.tag) }

/-- **The required-attestations gate**: every candidate in turn. -/
def checkRequiredAttestations (log : AttestationLog) (candidate : List GateCandidate)
    (policy : PolicyFile) : Except BranchAdvanceBlocked (List TrustWaiver) :=
  (candidate.mapM (checkCandidate log policy)).map List.flatten

end LexLang
