/-
# LexLang.Attest.Attestation — attestations, and the verdicts read off them

What an attestation says (`lex-vcs/src/attestation.rs`), and the two verdicts folded from a list of
them: whether a stage is blocked, and since when a producer is. Both go by the timestamp the writer
gave, and at one timestamp a block that is lifted stays lifted.

The id hashes everything but the id, the timestamp, the cost and the signature, so attestations with
one id have one payload (`Identified`).
-/
import LexLang.Vcs.Operation
import LexLang.Json.Value

namespace LexLang.Attest

open LexLang.Vcs (StageId OpId IntentId SigId)
open List Option

/-! ## Attestations -/

/-- Identity of an attestation: the hash of its payload. -/
abbrev AttestationId := String

/-- What a review says. -/
inductive ReviewVerdict
  | approve
  | reject
  | requestChanges
  deriving DecidableEq

/-- How a specification was checked. -/
inductive SpecMethod
  | exhaustive
  | random
  | symbolic
  deriving DecidableEq

/-- **What was verified, or decided.** -/
inductive AttestationKind
  | examples (fileHash : String) (count : Nat)
  | spec (specId : String) (method : SpecMethod) (trials : Option Nat)
  | diffBody (otherBodyHash : String) (inputCount : Nat)
  | review (reviewer : String) (verdict : ReviewVerdict) (notes : Option String)
  | issueVerified (issueId shape : String)
  | typeCheck
  | effectAudit
  | sandboxRun (effects : List String)
  | override (actor reason : String) (targetAttestationId : Option AttestationId)
  | defer (actor reason : String)
  | block (actor reason : String)
  | unblock (actor reason : String)
  | trace (runId : String) (rootTarget : SigId)
  | producerBlock (toolId reason : String) (blockedAt : Nat)
  | producerUnblock (toolId reason : String) (unblockedAt : Nat)
  | repairHint (failedOpId : OpId) (errors : Json.Value) (suggestedTransform : Option Json.Value)
  | repairAttempt (hintId : OpId) (outcome : String) (appliedOpId : Option OpId)
  | producerTrust (toolId : String) (scoreThousandths : Nat) (evidence grantedBy : String)
  | trustWaived (producer : String) (scoreThousandths thresholdThousandths : Nat) (kindTag : String)
  | capsuleInstall (artifact contentHash signer effectiveGrant : String)
  | planApply (gate subject artifactSha256 signer manifest : String)
  | replay (expectedStageId : StageId) (producedStageId : Option StageId) (reproduced : Bool)
      (behavioralSamples : Option Nat) (model : Option String)

/-- The outcome. -/
inductive AttestationResult
  | passed
  | failed (detail : String)
  | inconclusive (detail : String)
  deriving DecidableEq

/-- Who produced an attestation. -/
structure ProducerDescriptor where
  tool : String
  version : String
  model : Option String
  deriving DecidableEq

/-- What an attestation's id hashes (`CanonicalAttestationView`). -/
structure Payload where
  stageId : StageId
  opId : Option OpId
  intentId : Option IntentId
  kind : AttestationKind
  result : AttestationResult
  producedBy : ProducerDescriptor

/-- **An attestation.** The timestamp is the writer's, and not part of the identity. -/
structure Attestation where
  attestationId : AttestationId
  payload : Payload
  timestamp : Nat

namespace Attestation

abbrev stageId (a : Attestation) : StageId := a.payload.stageId
abbrev opId (a : Attestation) : Option OpId := a.payload.opId
abbrev kind (a : Attestation) : AttestationKind := a.payload.kind

end Attestation

/-- **The ids are the payloads'**: none is the id of two. -/
def Identified (atts : List Attestation) : Prop :=
  ∀ a ∈ atts, ∀ b ∈ atts, a.attestationId = b.attestationId → a.payload = b.payload

/-! ## Verdicts -/

/-- **The latest decision** of a kind, by timestamp. At one timestamp a decision that lifts a block
wins. -/
def latestDecision {δ : Type} (decision : AttestationKind → Option δ) (lifts : δ → Bool)
    (attestations : List Attestation) : Option Attestation :=
  attestations.foldl (fun latest a =>
    match decision a.kind with
    | none => latest
    | some d =>
      match latest with
      | none => some a
      | some prev =>
        if prev.timestamp < a.timestamp then some a
        else if a.timestamp = prev.timestamp ∧ lifts d then some a
        else some prev) none

/-- A decision to block a stage, or to unblock it. -/
def AttestationKind.blocks : AttestationKind → Option Bool
  | .block _ _ => some true
  | .unblock _ _ => some false
  | _ => none

/-- Whether a stage's latest decision is a block. -/
def isStageBlocked (attestations : List Attestation) : Bool :=
  match (latestDecision AttestationKind.blocks (fun blocked => !blocked) attestations).map
    Attestation.kind with
  | some (.block _ _) => true
  | _ => false

/-- A decision about a producer: the cut-off of a block, or none when it lifts one. -/
def AttestationKind.cutOff (toolId : String) : AttestationKind → Option (Option Nat)
  | .producerBlock tool _ blockedAt => if tool = toolId then some (some blockedAt) else none
  | .producerUnblock tool _ _ => if tool = toolId then some none else none
  | _ => none

/-- Since when a producer is blocked, if its latest decision is a block. -/
def activeProducerBlock (attestations : List Attestation) (toolId : String) : Option Nat :=
  match (latestDecision (AttestationKind.cutOff toolId) isNone attestations).map
    Attestation.kind with
  | some (.producerBlock _ _ blockedAt) => some blockedAt
  | _ => none

/-! ## What the verdicts are -/

section Latest

variable {δ : Type} {decision : AttestationKind → Option δ} {lifts : δ → Bool}

variable {attestations : List Attestation}

/-- **With distinct timestamps the latest decision is the one of the greatest**, in whatever order
they are listed. -/
theorem latestDecision_eq_some {a : Attestation} (ha : a ∈ attestations) (hdecides : (decision a.kind).isSome)
    (hlast : ∀ b ∈ attestations, (decision b.kind).isSome → b = a ∨ b.timestamp < a.timestamp) :
    latestDecision decision lifts attestations = some a := by
  unfold latestDecision
  -- once `a` is read it stays, and what is held before is older
  suffices h : ∀ (rest : List Attestation) (latest : Option Attestation),
      (∀ b ∈ rest, (decision b.kind).isSome → b = a ∨ b.timestamp < a.timestamp) →
      (latest = some a ∨ (a ∈ rest ∧ ∀ b, latest = some b → b.timestamp < a.timestamp)) →
      rest.foldl (fun latest a =>
        match decision a.kind with
        | none => latest
        | some d =>
          match latest with
          | none => some a
          | some prev =>
            if prev.timestamp < a.timestamp then some a
            else if a.timestamp = prev.timestamp ∧ lifts d then some a
            else some prev) latest = some a by
    exact h attestations none hlast (.inr ⟨ha, fun b hb => nomatch hb⟩)
  intro rest
  induction rest with
  | nil =>
    rintro latest - (rfl | ⟨hmem, -⟩)
    · rfl
    · cases hmem
  | cons b rest ih =>
    intro latest hrest hlatest
    rw [foldl_cons]
    apply ih
    · exact fun b' hb' => hrest b' (mem_cons_of_mem b hb')
    · cases hb : decision b.kind with
      | none =>
        rcases hlatest with rfl | ⟨hmem, hold⟩
        · exact .inl rfl
        · rcases mem_cons.mp hmem with rfl | hmem
          · rw [hb] at hdecides
            cases hdecides
          · exact .inr ⟨hmem, hold⟩
      | some d =>
        have hbefore := hrest b mem_cons_self (by rw [hb]; rfl)
        rcases hlatest with rfl | ⟨hmem, hold⟩
        · left
          rcases hbefore with rfl | hlt
          · simp
          · simp only [if_neg (by omega : ¬ a.timestamp < b.timestamp),
              if_neg (by omega : ¬ (b.timestamp = a.timestamp ∧ lifts d = true))]
        · rcases hbefore with rfl | hlt
          · left
            cases latest with
            | none => rfl
            | some prev => simp only [if_pos (hold prev rfl)]
          · right
            have hmem' : a ∈ rest := by
              rcases mem_cons.mp hmem with rfl | hmem
              · omega
              · exact hmem
            refine ⟨hmem', fun b' hb' => ?_⟩
            cases latest with
            | none =>
              obtain rfl := some.inj hb'
              exact hlt
            | some prev =>
              have hprev := hold prev rfl
              simp only at hb'
              split at hb'
              · obtain rfl := some.inj hb'
                exact hlt
              · split at hb'
                · obtain rfl := some.inj hb'
                  exact hlt
                · obtain rfl := some.inj hb'
                  exact hprev

theorem latestDecision_decides {a : Attestation}
    (h : latestDecision decision lifts attestations = some a) : (decision a.kind).isSome := by
  unfold latestDecision at h
  induction attestations using reverseRecOn generalizing a with
  | nil => cases h
  | append_singleton attestations b ih =>
    rw [foldl_append, foldl_cons, foldl_nil] at h
    split at h
    · exact ih h
    · next d hd =>
      have hb : (decision b.kind).isSome := by
        rw [hd]
        rfl
      split at h
      · obtain rfl := some.inj h
        exact hb
      · next prev hprev =>
        split at h
        · obtain rfl := some.inj h
          exact hb
        · split at h
          · obtain rfl := some.inj h
            exact hb
          · obtain rfl := some.inj h
            exact ih hprev

theorem latestDecision_eq_none (h : ∀ a ∈ attestations, decision a.kind = none) :
    latestDecision decision lifts attestations = none := by
  unfold latestDecision
  induction attestations with
  | nil => rfl
  | cons a attestations ih =>
    rw [foldl_cons, h a mem_cons_self]
    exact ih fun b hb => h b (mem_cons_of_mem a hb)

end Latest

end LexLang.Attest
