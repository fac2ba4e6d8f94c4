/-
# LexLang.Vcs.EffectRecord — what a history has recorded of a declaration's effects

An addition and a change of effects record the effect labels and the budget a declaration has from
then on. A later operation on the declaration says what it had before. What the history has recorded
follows the declaration from sig to sig (`record`), and next to it runs the sum of the budget deltas.

`Continues` compares the two: what an operation says was there, and what was recorded last.
-/
import LexLang.Transition.Footprint
import LexLang.Vcs.PublishRoundTrip

namespace LexLang.Vcs

open LexLang.Ast LexLang.Transition
open List

/-! ## Records -/

/-- What is recorded of a declaration: labels, budget, and the sum of the budget deltas so far. -/
structure EffectRecord where
  effects : EffectSet
  budget : Option UInt64
  total : Int

/-- The records by sig. -/
abbrev Records := SigId → Option EffectRecord

/-- A budget as an amount; none is nothing. -/
def amount (budget : Option UInt64) : Int :=
  match budget with
  | some n => n.toNat
  | none => 0

/-- What an operation adds to the budget it declares. -/
def OperationKind.change (kind : OperationKind) : Int :=
  amount kind.budgetDelta.2 - amount kind.budgetDelta.1

/-- The record moves from one sig to another. -/
def moveRecord (records : Records) (fromSig toSig : SigId) (entry : Option EffectRecord) : Records :=
  fun sig => if sig = toSig then entry else if sig = fromSig then none else records sig

/-- An operation that records no effects of its own adds to the sum. -/
def addChange (kind : OperationKind) (entry : EffectRecord) : EffectRecord :=
  { entry with total := entry.total + kind.change }

/-- **What one operation records.** -/
def record (records : Records) (kind : OperationKind) : Records :=
  match kind with
  | .addFunction sig _ effects budgetCost _ =>
    moveRecord records sig sig (some ⟨effects, budgetCost, kind.change⟩)
  | .removeFunction sig _ => moveRecord records sig sig none
  | .modifyBody sig _ _ _ _ toSig =>
    moveRecord records sig (toSig.getD sig) ((records sig).map (addChange kind))
  | .changeEffectSig sig _ _ _ toEffects _ toBudget toSig =>
    moveRecord records sig (toSig.getD sig)
      (some ⟨toEffects, toBudget, (records sig).elim 0 EffectRecord.total + kind.change⟩)
  | .renameSymbol fromSig toSig _ _ => moveRecord records fromSig toSig (records fromSig)
  | .inlineLet sig _ _ _ _ _ _ | .renameLocal sig _ _ _ _ _ _ _
  | .replaceMatchArm sig _ _ _ _ _ _ =>
    moveRecord records sig sig ((records sig).map (addChange kind))
  | _ => records

/-- The records after a history. -/
def recorded (kinds : List OperationKind) : Records := kinds.foldl record fun _ => none

/-- **An operation continues the record**: the effects and the budget it says were there are those
recorded last. Only a change of effects says both. -/
def Continues (records : Records) : OperationKind → Prop
  | .changeEffectSig sig _ _ fromEffects _ fromBudget _ _ =>
    ∃ entry, records sig = some entry ∧ fromEffects = entry.effects ∧ fromBudget = entry.budget
  | _ => True

/-- Every operation of a history continues the record of those before it. -/
def Continuous (records : Records) (kinds : List OperationKind) : Prop :=
  ∀ before kind after, kinds = before ++ kind :: after →
    Continues (before.foldl record records) kind

variable {records : Records}

theorem Continuous.append {kinds kinds' : List OperationKind} : Continuous records (kinds ++ kinds') ↔
      Continuous records kinds ∧ Continuous (kinds.foldl record records) kinds' := by
  constructor
  · intro h
    constructor
    · rintro before kind after rfl
      exact h before kind (after ++ kinds') (by simp)
    · rintro before kind after rfl
      have hlater := h (kinds ++ before) kind after (by simp)
      rwa [foldl_append] at hlater
  · rintro ⟨h, h'⟩ before kind after heq
    rcases append_eq_append_iff.mp heq with ⟨rest, rfl, hrest⟩ | ⟨rest, rfl, hrest⟩
    · rw [foldl_append]
      exact h' rest kind after hrest
    · cases rest with
      | nil =>
        rw [nil_append] at hrest
        rw [append_nil] at h'
        exact h' [] kind after hrest.symm
      | cons kind' rest =>
        obtain ⟨rfl, rfl⟩ := List.cons.inj hrest
        exact h before kind rest rfl

/-! ## What an operation touches -/

/-- The sigs whose record an operation reads or writes. -/
def OperationKind.touches : OperationKind → List SigId
  | .addFunction sig _ _ _ _ | .removeFunction sig _ | .inlineLet sig _ _ _ _ _ _
  | .renameLocal sig _ _ _ _ _ _ _ | .replaceMatchArm sig _ _ _ _ _ _ => [sig]
  | .modifyBody sig _ _ _ _ toSig | .changeEffectSig sig _ _ _ _ _ _ toSig =>
    [sig, toSig.getD sig]
  | .renameSymbol fromSig toSig _ _ => [fromSig, toSig]
  | _ => []

variable {entry : Option EffectRecord}

variable {fromSig toSig sig : SigId}

theorem moveRecord_frame (h : sig ∉ [fromSig, toSig]) : moveRecord records fromSig toSig entry sig = records sig := by
  simp only [mem_cons, not_mem_nil, or_false, not_or] at h
  rw [moveRecord, if_neg h.2, if_neg h.1]

theorem moveRecord_within {records' : Records} (h : sig ∈ [fromSig, toSig]) :
    moveRecord records fromSig toSig entry sig = moveRecord records' fromSig toSig entry sig := by
  simp only [mem_cons, not_mem_nil, or_false] at h
  unfold moveRecord
  split
  · rfl
  · next hto => rw [if_pos (h.resolve_right hto), if_pos (h.resolve_right hto)]

/-- **An operation records at the sigs it touches.** -/
theorem record_footprint : Footprint record OperationKind.touches where
  frame := by
    intro records kind sig hsig
    cases kind
    all_goals first
      | rfl
      | exact moveRecord_frame hsig
      | exact moveRecord_frame (by simpa [OperationKind.touches] using hsig)
  within := by
    intro records records' kind hsame sig hsig
    cases kind
    case addFunction | removeFunction =>
      exact moveRecord_within (by simpa [OperationKind.touches] using hsig)
    case modifyBody | changeEffectSig | renameSymbol =>
      simp only [record, hsame _ mem_cons_self]
      exact moveRecord_within hsig
    case inlineLet | renameLocal | replaceMatchArm =>
      simp only [record, hsame _ mem_cons_self]
      exact moveRecord_within (by simpa [OperationKind.touches] using hsig)
    all_goals cases hsig

theorem record_target : moveRecord records fromSig toSig entry toSig = entry := by
  rw [moveRecord, if_pos rfl]

/-- A change of the body takes the record along. -/
theorem record_modifyBody {entry : EffectRecord}
    {fromId toId : StageId} {fromBudget toBudget : Option UInt64} {toSig : Option SigId}
    (h : records sig = some entry) :
    record records (.modifyBody sig fromId toId fromBudget toBudget toSig) (toSig.getD sig) =
      some { entry with total := entry.total + (amount toBudget - amount fromBudget) } := by
  refine record_target.trans ?_
  rw [h, Option.map_some]
  rfl

end LexLang.Vcs
