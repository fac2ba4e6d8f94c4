/-
# LexLang.Vcs.Predicate — saved queries over the op log

A predicate names a set of operations (`lex-vcs/src/predicate.rs`): those of an intent or a session,
the ancestry of one operation, and what `And`, `Or` and `Not` make of them. The evaluator scans the
whole log, or only one operation's ancestry when an `And` has a clause that asks for it.
-/
import LexLang.Vcs.ReplayOrder

namespace LexLang.Vcs

open List Std.ExtTreeMap

/-- **A saved query over the op log.** -/
inductive Predicate
  | all
  | intent (intentId : IntentId)
  | session (sessionId : String)
  | ancestorOf (opId : OpId)
  | and (ps : List Predicate)
  | or (ps : List Predicate)
  | not (p : Predicate)

namespace Predicate

mutual

/-- Where the scan starts: an operation whose ancestry holds every match, if one is found. -/
def candidateRoot : Predicate → Option OpId
  | .ancestorOf opId => some opId
  | .and ps => firstRoot ps
  | .all | .intent _ | .session _ | .or _ | .not _ => none

/-- The first clause that starts somewhere. -/
def firstRoot : List Predicate → Option OpId
  | [] => none
  | p :: ps => (candidateRoot p).or (firstRoot ps)

end

section Matches

variable (log : OpLog) (sessionOf : IntentId → Option String) (record : OperationRecord)

mutual

/-- Whether a record matches. -/
def «matches» : Predicate → Bool
  | .all => true
  | .intent intentId => record.op.intentId == some intentId
  | .session sessionId => record.op.intentId.any fun id => sessionOf id == some sessionId
  | .ancestorOf opId => ((log.walkBack opId none).map OperationRecord.opId).contains record.opId
  | .and ps => allMatch ps
  | .or ps => anyMatch ps
  | .not p => !«matches» p

def allMatch : List Predicate → Bool
  | [] => true
  | p :: ps => «matches» p && allMatch ps

def anyMatch : List Predicate → Bool
  | [] => false
  | p :: ps => «matches» p || anyMatch ps

end

end Matches

/-- What is scanned. -/
def candidateSet (log : OpLog) : Option OpId → List OperationRecord
  | some head => log.walkBack head none
  | none => log.records.toList.map Prod.snd

/-- The matching records, with sessions looked up by `sessionOf`. -/
def evaluateWithResolver (log : OpLog) (sessionOf : IntentId → Option String) (p : Predicate) :
    List OperationRecord :=
  (candidateSet log p.candidateRoot).filter fun record => p.matches log sessionOf record

/-- The matching records, as if no intent had a session. -/
def evaluate (log : OpLog) (p : Predicate) : List OperationRecord :=
  p.evaluateWithResolver log fun _ => none

/-! ## The narrower scan -/

variable {log : OpLog} {sessionOf : IntentId → Option String} {record : OperationRecord}

mutual

theorem reach_of_matches {root : OpId} : ∀ {p : Predicate}, p.candidateRoot = some root →
    p.matches log sessionOf record = true → log.Reach root record.opId
  | .ancestorOf opId, hroot, hmatch => by
    obtain rfl := Option.some.inj hroot
    unfold Predicate.matches at hmatch
    obtain ⟨found, hfound, hid⟩ := mem_map.mp (contains_iff_mem.mp hmatch)
    exact hid ▸ (OpLog.mem_walkBack_iff.mp hfound).2
  | .and ps, hroot, hmatch => @reach_of_allMatch root ps hroot hmatch

theorem reach_of_allMatch {root : OpId} : ∀ {ps : List Predicate}, firstRoot ps = some root →
    allMatch log sessionOf record ps = true → log.Reach root record.opId
  | p :: ps, hroot, hmatch => by
    unfold allMatch at hmatch
    obtain ⟨hp, hps⟩ := Bool.and_eq_true_iff.mp hmatch
    unfold firstRoot at hroot
    rcases Option.or_eq_some_iff.mp hroot with h | ⟨_, h⟩
    · exact reach_of_matches h hp
    · exact reach_of_allMatch h hps

end

theorem mem_listAll_iff : record ∈ log.records.toList.map Prod.snd ↔ log.get record.opId = some record := by
  rw [mem_map]
  constructor
  · rintro ⟨⟨id, record⟩, hmem, rfl⟩
    have hget : log.get id = some record := mem_toList_iff_getElem?_eq_some.mp hmem
    rw [OpLog.get_opId hget]
    exact hget
  · intro hget
    exact ⟨(record.opId, record), mem_toList_iff_getElem?_eq_some.mpr hget, rfl⟩

/-- **The evaluator returns the logged records that match**, wherever it starts. -/
theorem mem_evaluateWithResolver_iff {p : Predicate} : record ∈ p.evaluateWithResolver log sessionOf ↔
      log.get record.opId = some record ∧ p.matches log sessionOf record = true := by
  unfold evaluateWithResolver
  rw [mem_filter]
  cases hroot : p.candidateRoot with
  | none =>
    rw [show candidateSet log none = log.records.toList.map Prod.snd from rfl, mem_listAll_iff]
  | some root =>
    show record ∈ log.walkBack root none ∧ _ ↔ _
    rw [OpLog.mem_walkBack_iff]
    constructor
    · rintro ⟨⟨hget, -⟩, hmatch⟩
      exact ⟨hget, hmatch⟩
    · rintro ⟨hget, hmatch⟩
      exact ⟨⟨hget, reach_of_matches hroot hmatch⟩, hmatch⟩

theorem mem_evaluate_iff {p : Predicate} : record ∈ p.evaluate log ↔
    log.get record.opId = some record ∧ p.matches log (fun _ => none) record = true :=
  mem_evaluateWithResolver_iff

end Predicate

end LexLang.Vcs
