/-
# LexLang.Vcs.Operation — operation kinds, the transitions they produce, and operations

The vocabulary of the op log (`lex-vcs/src/operation.rs`): the seventeen operation kinds, the effect
an operation has on a head (`StageTransition`), and an operation with its causal parents.
-/
import Mathlib.Data.List.Sort
import Mathlib.Data.List.Dedup
import Mathlib.Data.String.Basic

namespace LexLang.Vcs

open List

/-! ## Identities -/

/-- Identity of a declaration. -/
abbrev SigId := String

/-- Identity of one stored body of a declaration. -/
abbrev StageId := String

/-- Identity of an operation: the hash of its canonical form. -/
abbrev OpId := String

/-- Identity of a recorded intent. -/
abbrev IntentId := String

/-- Reference to an imported module. -/
abbrev ModuleRef := String

/-- Content hash of a blob. -/
abbrev BlobId := String

/-- Sorted set of effect-kind strings. -/
abbrev EffectSet := Std.ExtTreeSet String

/-! ## Transitions -/

/-- What an operation does to a head's sig → stage map. -/
inductive StageTransition
  | create (sigId : SigId) (stageId : StageId)
  | replace (sigId : SigId) (fromStage toStage : StageId)
  | remove (sigId : SigId) (last : StageId)
  | rename (fromSig toSig : SigId) (bodyStageId : StageId)
  | importOnly
  | merge (entries : Std.ExtTreeMap SigId (Option StageId))
  | filesOnly
  deriving DecidableEq

/-! ## Kinds -/

/-- What an operation is. `from` and `to` of the source's `RenameSymbol` are `fromSig`/`toSig`. -/
inductive OperationKind
  | addFunction (sigId : SigId) (stageId : StageId) (effects : EffectSet)
      (budgetCost : Option UInt64) (inFile : Option String)
  | removeFunction (sigId : SigId) (lastStageId : StageId)
  | modifyBody (sigId : SigId) (fromStageId toStageId : StageId)
      (fromBudget toBudget : Option UInt64) (toSigId : Option SigId)
  | renameSymbol (fromSig toSig : SigId) (bodyStageId : StageId) (inFile : Option String)
  | changeEffectSig (sigId : SigId) (fromStageId toStageId : StageId)
      (fromEffects toEffects : EffectSet) (fromBudget toBudget : Option UInt64)
      (toSigId : Option SigId)
  | addImport (inFile : String) (moduleRef : ModuleRef) (importAlias : Option String)
  | removeImport (inFile : String) (moduleRef : ModuleRef)
  | addType (sigId : SigId) (stageId : StageId) (inFile : Option String)
  | removeType (sigId : SigId) (lastStageId : StageId)
  | modifyType (sigId : SigId) (fromStageId toStageId : StageId) (toSigId : Option SigId)
  | merge (resolved : Nat)
  | inlineLet (sigId : SigId) (fromStageId toStageId : StageId) (letNode bindingName : String)
      (fromBudget toBudget : Option UInt64)
  | renameLocal (sigId : SigId) (fromStageId toStageId : StageId)
      (letNode oldName newName : String) (fromBudget toBudget : Option UInt64)
  | replaceMatchArm (sigId : SigId) (fromStageId toStageId : StageId) (matchNode : String)
      (armIndex : Nat) (fromBudget toBudget : Option UInt64)
  | candidate (sigId : SigId) (stageId : StageId)
  | promote (sigId : SigId) (winnerCandidate : OpId) (winnerStageId : StageId)
      (supersedes : List OpId) (fromStageId : Option StageId) (fromBudget toBudget : Option UInt64)
  | setFiles (manifest : BlobId)
  deriving DecidableEq

/-- The head transition a kind produces: the one place the write paths take it from. A merge's is a
placeholder, since its entries are not part of its kind. -/
def transitionForKind : OperationKind → StageTransition
  | .addFunction sigId stageId _ _ _ => .create sigId stageId
  | .addType sigId stageId _ => .create sigId stageId
  | .removeFunction sigId lastStageId => .remove sigId lastStageId
  | .removeType sigId lastStageId => .remove sigId lastStageId
  | .changeEffectSig sigId fromStageId toStageId _ _ _ _ toSigId
  | .modifyBody sigId fromStageId toStageId _ _ toSigId
  | .modifyType sigId fromStageId toStageId toSigId =>
    match toSigId with
    | some toSig =>
      -- a new signature is a new sig: the head entry moves
      if toSig ≠ sigId then .rename sigId toSig toStageId
      else .replace sigId fromStageId toStageId
    | none => .replace sigId fromStageId toStageId
  | .replaceMatchArm sigId fromStageId toStageId _ _ _ _ => .replace sigId fromStageId toStageId
  | .renameLocal sigId fromStageId toStageId _ _ _ _ _ => .replace sigId fromStageId toStageId
  | .inlineLet sigId fromStageId toStageId _ _ _ _ => .replace sigId fromStageId toStageId
  | .renameSymbol fromSig toSig bodyStageId _ => .rename fromSig toSig bodyStageId
  | .addImport _ _ _ => .importOnly
  | .removeImport _ _ => .importOnly
  | .merge _ => .merge ∅
  | .candidate _ _ => .importOnly
  | .setFiles _ => .filesOnly
  | .promote sigId _ winnerStageId _ fromStageId _ _ =>
    match fromStageId with
    | some fromStage => .replace sigId fromStage winnerStageId
    | none => .create sigId winnerStageId

theorem transitionForKind_eq_merge {kind : OperationKind}
    {entries : Std.ExtTreeMap SigId (Option StageId)} (h : transitionForKind kind = .merge entries) :
    ∃ n, kind = .merge n := by
  cases kind with
  | merge n => exact ⟨n, rfl⟩
  | modifyBody _ _ _ _ _ toSigId | changeEffectSig _ _ _ _ _ _ _ toSigId
  | modifyType _ _ _ toSigId =>
    unfold transitionForKind at h
    cases toSigId with
    | none => cases h
    | some toSig =>
      simp only at h
      split at h <;> cases h
  | promote _ _ _ _ fromStageId =>
    cases fromStageId <;> cases h
  | _ => cases h

/-- The declared budget an operation moves from and to. -/
def OperationKind.budgetDelta : OperationKind → Option UInt64 × Option UInt64
  | .addFunction _ _ _ budgetCost _ => (none, budgetCost)
  | .modifyBody _ _ _ fromBudget toBudget _ => (fromBudget, toBudget)
  | .changeEffectSig _ _ _ _ _ fromBudget toBudget _ => (fromBudget, toBudget)
  | .replaceMatchArm _ _ _ _ _ fromBudget toBudget => (fromBudget, toBudget)
  | .renameLocal _ _ _ _ _ _ fromBudget toBudget => (fromBudget, toBudget)
  | .inlineLet _ _ _ _ _ fromBudget toBudget => (fromBudget, toBudget)
  | .promote _ _ _ _ _ fromBudget toBudget => (fromBudget, toBudget)
  | _ => (none, none)

/-! ## Operations -/

/-- An operation: what it does, on top of what, and why. -/
structure Operation where
  kind : OperationKind
  parents : List OpId
  intentId : Option IntentId
  deriving DecidableEq

/-- Sorted and without duplicates: `Vec::sort` then `Vec::dedup`, and a `BTreeSet`'s order. -/
def sortedSet (ids : List String) : List String := (ids.insertionSort (· ≤ ·)).dedup

namespace Operation

/-- An operation on the given parents, which are sorted and deduplicated. -/
def new (kind : OperationKind) (parents : List OpId) : Operation :=
  { kind, parents := sortedSet parents, intentId := none }

/-- The operation stamped with an intent. -/
def withIntent (op : Operation) (intentId : IntentId) : Operation :=
  { op with intentId := some intentId }

@[simp] theorem new_kind (kind : OperationKind) (parents : List OpId) : (new kind parents).kind = kind := rfl

@[simp] theorem new_parents (kind : OperationKind) (parents : List OpId) :
    (new kind parents).parents = sortedSet parents := rfl

end Operation

theorem mem_sortedSet {ids : List String} {id : String} : id ∈ sortedSet ids ↔ id ∈ ids := by
  unfold sortedSet
  rw [mem_dedup, mem_insertionSort]

theorem sortedSet_nodup (ids : List String) : (sortedSet ids).Nodup := nodup_dedup _

theorem sortedSet_sorted (ids : List String) : (sortedSet ids).Pairwise (· < ·) := by
  have hle : (sortedSet ids).Pairwise (· ≤ ·) :=
    (pairwise_insertionSort (· ≤ ·) ids).sublist (dedup_sublist _)
  exact (hle.and (sortedSet_nodup ids)).imp fun h => lt_of_le_of_ne h.1 h.2

theorem sortedSet_of_sorted {ids : List String} (h : ids.Pairwise (· < ·)) : sortedSet ids = ids := by
  unfold sortedSet
  rw [(h.imp le_of_lt : ids.Pairwise (· ≤ ·)).insertionSort_eq, dedup_eq_self]
  exact h.imp ne_of_lt

theorem sortedSet_idem (ids : List String) : sortedSet (sortedSet ids) = sortedSet ids :=
  sortedSet_of_sorted (sortedSet_sorted ids)

end LexLang.Vcs
