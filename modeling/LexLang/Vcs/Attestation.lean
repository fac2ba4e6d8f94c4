/-
# LexLang.Vcs.Attestation — the attestation log and the intent log

Verdicts about stages (`lex-vcs/src/attestation.rs`) and the intents operations are stamped with
(`lex-vcs/src/intent.rs`). Both logs are append-only and keyed on content: putting an entry that is
there already changes nothing, and the timestamp is not part of an attestation's identity.
-/
import LexLang.Vcs.Operation

namespace LexLang.Vcs

/-! ## Attestations -/

/-- The name of the tool that produced an attestation. -/
abbrev ToolId := String

/-- What a review says. -/
inductive ReviewVerdict
  | approve
  | reject
  | requestChanges
  deriving DecidableEq

/-- What was verified. The kinds whose payload only reports read are under `other`. -/
inductive AttestationKind
  | examples (fileHash : String) (count : Nat)
  | spec (specId : String)
  | diffBody (otherBodyHash : String) (inputCount : Nat)
  | review (reviewer : String) (verdict : ReviewVerdict)
  | typeCheck
  | effectAudit
  | sandboxRun (effects : List String)
  | producerBlock (toolId : ToolId) (reason : String) (blockedAt : Nat)
  | producerUnblock (toolId : ToolId) (reason : String) (unblockedAt : Nat)
  | repairHint (failedOpId : OpId)
  | producerTrust (toolId : ToolId) (scoreThousandths : Nat)
  | trustWaived (producer : ToolId) (scoreThousandths thresholdThousandths : Nat) (kindTag : String)
  | other (tag : String)
  deriving DecidableEq

/-- The outcome. -/
inductive AttestationResult
  | passed
  | failed (detail : String)
  | inconclusive (detail : String)
  deriving DecidableEq

/-- Who produced an attestation. -/
structure ProducerDescriptor where
  tool : ToolId
  model : Option String
  deriving DecidableEq

/-- **An attestation**: a claim about a stage, of which the timestamp is not part of the identity. -/
structure Attestation where
  stageId : StageId
  opId : Option OpId
  kind : AttestationKind
  result : AttestationResult
  producedBy : ProducerDescriptor
  timestamp : Nat
  deriving DecidableEq

/-- The content an attestation's id hashes. -/
def Attestation.identity (a : Attestation) :
    StageId × Option OpId × AttestationKind × AttestationResult × ProducerDescriptor :=
  (a.stageId, a.opId, a.kind, a.result, a.producedBy)

/-- **The attestation log**, in the order the entries arrived. -/
abbrev AttestationLog := List Attestation

namespace AttestationLog

/-- Persist an attestation. One with the same identity is left as it is. -/
def put (log : AttestationLog) (a : Attestation) : AttestationLog :=
  if log.any fun b => b.identity = a.identity then log else log ++ [a]

/-- The attestations of a stage. -/
def listForStage (log : AttestationLog) (stageId : StageId) : List Attestation :=
  log.filter fun a => a.stageId = stageId

theorem subset_put (log : AttestationLog) (a : Attestation) : log ⊆ log.put a := by
  unfold put
  split
  · exact List.Subset.refl _
  · exact List.subset_append_left _ _

end AttestationLog

/-- The verdict of a tool: `some blockedAt` while its latest block stands (at the same second an
unblock wins). -/
def activeProducerBlock (attestations : List Attestation) (toolId : ToolId) : Option Nat :=
  let verdicts := attestations.filter fun a =>
    match a.kind with
    | .producerBlock tool _ _ | .producerUnblock tool _ _ => tool = toolId
    | _ => false
  let latest := verdicts.foldl
    (fun latest a =>
      match latest with
      | none => some a
      | some prev =>
        if prev.timestamp < a.timestamp then some a
        else if a.timestamp = prev.timestamp then
          match a.kind with
          | .producerUnblock _ _ _ => some a
          | _ => some prev
        else some prev)
    (none : Option Attestation)
  match latest.map Attestation.kind with
  | some (.producerBlock _ _ blockedAt) => some blockedAt
  | _ => none

/-- The latest review of a stage, in order of arrival. -/
def latestReviewVerdict (log : AttestationLog) (stageId : StageId) : Option ReviewVerdict :=
  (log.listForStage stageId).reverse.findSome? fun a =>
    match a.kind with
    | .review _ verdict => some verdict
    | _ => none

/-! ## Intents -/

/-- The name of a session. -/
abbrev SessionId := String

/-- An intent, as far as the gates read it: the session it belongs to. -/
structure Intent where
  intentId : IntentId
  sessionId : SessionId
  deriving DecidableEq

/-- **The intent log.** -/
abbrev IntentLog := Std.ExtTreeMap IntentId Intent

namespace IntentLog

/-- The intent recorded under an id. -/
def get (log : IntentLog) (id : IntentId) : Option Intent := log[id]?

/-- Persist an intent. An id already there is left alone. -/
def put (log : IntentLog) (intent : Intent) : IntentLog :=
  log.insertIfNew intent.intentId intent

end IntentLog

end LexLang.Vcs
