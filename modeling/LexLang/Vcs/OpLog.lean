/-
# LexLang.Vcs.OpLog — the op log and its walks

The log of operation records (`lex-vcs/src/op_log.rs`) as a map from ids to records, and the
queries the rest of the system reads it through: the breadth-first `walkBack`, the replay order
`walkForward` (its reverse, put in topological order by `linearize`), the bounded
`walkForwardSince` with its `continuesFrom` test, `lca` and `opsSince`.

The source's loops are kept as loops, with fuel; `walkFuel` and `continuesFuel` are enough
(`OpLog.walk_walkBack`, `OpLog.continuesLoop_terminates`).
-/
import LexLang.Graph.Kahn
import LexLang.Graph.Walk
import LexLang.Vcs.Canonical
import Mathlib.Algebra.GroupWithZero.Nat

namespace LexLang.Vcs

open LexLang.Graph
open Option Std.ExtTreeMap

/-! ## The log -/

/-- **The op log**: records filed under their own id. -/
structure OpLog where
  records : Std.ExtTreeMap OpId OperationRecord
  keyed : ∀ (id : OpId) (record : OperationRecord), records[id]? = some record → record.opId = id

namespace OpLog

/-- The log without operations. -/
def empty : OpLog where
  records := ∅
  keyed := by simp

/-- The record filed under an id. -/
def get (log : OpLog) (id : OpId) : Option OperationRecord := log.records[id]?

/-- Persist a record. An id already there is left alone. -/
def put (log : OpLog) (record : OperationRecord) : OpLog :=
  if (log.get record.opId).isSome then log
  else
    { records := log.records.insert record.opId record
      keyed := by
        intro id record' h
        rw [getElem?_insert] at h
        split at h
        · rename_i heq
          rw [← some.inj h]
          exact Std.LawfulEqCmp.eq_of_compare heq
        · exact log.keyed id record' h }

theorem get_opId {log : OpLog} {id : OpId} {record : OperationRecord}
    (h : log.get id = some record) : record.opId = id := log.keyed id record h

@[simp] theorem get_empty (id : OpId) : empty.get id = none := by
  unfold get empty
  simp

/-- What a put leaves under every id: the stored record if there was one, else the new one under its
own id. -/
theorem get_put (log : OpLog) (record : OperationRecord) (id : OpId) : (log.put record).get id =
      (log.get id).or (if record.opId = id then some record else none) := by
  unfold put
  by_cases hid : record.opId = id
  · subst hid
    cases hget : log.get record.opId with
    | some stored => simp [hget]
    | none =>
      simp only [isSome_none, Bool.false_eq_true, if_false, get, if_true, none_or]
      simp
  · rw [if_neg hid, or_none]
    split
    · rfl
    · simp only [get, getElem?_insert]
      rw [if_neg (by simpa using hid)]

theorem get_put_of_some {log : OpLog} {id : OpId} {stored : OperationRecord}
    (record : OperationRecord) (h : log.get id = some stored) : (log.put record).get id = some stored := by
  rw [get_put, h, some_or]

/-- The parents of the record filed under an id: the successor function of the log's DAG. -/
def parentsOf (log : OpLog) (id : OpId) : Option (List OpId) :=
  (log.get id).map fun record => record.op.parents

/-- No operation is its own ancestor. -/
abbrev Acyclic (log : OpLog) : Prop := Graph.Acyclic log.parentsOf

/-- `ancestor` is reached from `id` by following parents, `id` itself included. -/
abbrev Reach (log : OpLog) (id ancestor : OpId) : Prop := Graph.Reach log.parentsOf id ancestor

/-! ## `walkBack` -/

/-- Fuel for a walk: the head, and one unit for every parent entry of the log. -/
def walkFuel (log : OpLog) : Nat :=
  1 + (log.records.toList.map fun entry => entry.2.op.parents.length).sum

/-- The walk's loop: pop the oldest pending id, skip it when seen, else push its unseen parents and
record it; stop once `limit` records are out. -/
def walkBackLoop (log : OpLog) (limit : Option Nat) :
    Nat → Finset OpId → List OpId → List OperationRecord → List OperationRecord
  | 0, _, _, out => out
  | _ + 1, _, [], out => out
  | fuel + 1, seen, id :: frontier, out =>
    if id ∈ seen then log.walkBackLoop limit fuel seen frontier out
    else
      match log.get id with
      | none => log.walkBackLoop limit fuel (insert id seen) frontier out
      | some record =>
        let frontier := frontier ++
          record.op.parents.filter fun p => decide (p ∉ insert id seen)
        let out := out ++ [record]
        if limit.any fun n => decide (n ≤ out.length) then out
        else log.walkBackLoop limit fuel (insert id seen) frontier out

/-- **Walk parents transitively**, newest first, breadth first, each id once. -/
def walkBack (log : OpLog) (head : OpId) (limit : Option Nat) : List OperationRecord :=
  log.walkBackLoop limit log.walkFuel ∅ [head] []

/-! ## `linearize` and `walkForward` -/

/-- The position of the last record filed under `id`. -/
def indexOf (records : List OperationRecord) (id : OpId) : Option Nat :=
  (records.zipIdx.reverse.find? fun entry => entry.1.opId == id).map Prod.snd

/-- Every record already comes after all of its parents that are in the list. -/
def inOrder (records : List OperationRecord) : Bool :=
  records.zipIdx.all fun entry =>
    entry.1.op.parents.all fun p => (indexOf records p).all fun j => decide (j < entry.2)

/-- The parents of the record at position `i`. -/
def parentsAt (records : List OperationRecord) (i : Nat) : List OpId :=
  match records[i]? with
  | some record => record.op.parents
  | none => []

/-- Note the position of one more parent of record `i`, unless it is `i` or noted already. -/
def addInSetParent (records : List OperationRecord) (i : Nat) (seen : List Nat) (p : OpId) :
    List Nat :=
  match indexOf records p with
  | some j => if j ≠ i ∧ j ∉ seen then seen ++ [j] else seen
  | none => seen

/-- The positions of a record's distinct parents in the list, its own position excepted. -/
def inSetParents (records : List OperationRecord) (i : Nat) (parents : List OpId) : List Nat :=
  parents.foldl (addInSetParent records i) []

/-- **A topological order of the records**, the earliest listed first among those ready. -/
def linearize (records : List OperationRecord) : List OperationRecord :=
  if inOrder records then records
  else
    let preds := fun i => inSetParents records i (parentsAt records i)
    (kahnOrder records.length preds).filterMap fun i => records[i]?

/-- **The order a head is replayed in**: every operation after all of its parents. -/
def walkForward (log : OpLog) (head : OpId) (limit : Option Nat) : List OperationRecord :=
  let all := linearize (log.walkBack head none).reverse
  match limit with
  | some n => all.take n
  | none => all

/-! ## `walkForwardSince` -/

/-- The bounded walk's loop: like `walkBackLoop`, but `since` is only noted, never entered. -/
def walkSinceLoop (log : OpLog) (since : OpId) :
    Nat → Finset OpId → List OpId → Bool → List OperationRecord → Bool × List OperationRecord
  | 0, _, _, found, out => (found, out)
  | _ + 1, _, [], found, out => (found, out)
  | fuel + 1, seen, id :: frontier, found, out =>
    if id ∈ seen then log.walkSinceLoop since fuel seen frontier found out
    else if id = since then log.walkSinceLoop since fuel (insert id seen) frontier true out
    else
      match log.get id with
      | none => log.walkSinceLoop since fuel (insert id seen) frontier found out
      | some record =>
        log.walkSinceLoop since fuel (insert id seen)
          (frontier ++ record.op.parents.filter fun p => decide (p ∉ insert id seen)) found
          (out ++ [record])

/-- **The records from `head` back to `since`**, oldest first; `none` when `since` is never met. -/
def walkForwardSince (log : OpLog) (head since : OpId) : Option (List OperationRecord) :=
  if head = since then some []
  else
    let (found, out) := log.walkSinceLoop since log.walkFuel ∅ [head] false []
    if found then some out.reverse else none

/-! ## `continuesFrom` -/

/-- How far the depth-first search has got with a record. -/
inductive Mark
  | unvisited
  | inProgress
  /-- Descends from `since`. -/
  | descends
  /-- Does not. -/
  | apart
  deriving DecidableEq

/-- The search is done with the record. -/
def Mark.done : Mark → Bool
  | .unvisited | .inProgress => false
  | .descends | .apart => true

/-- What the scan of one record's parents has pushed and found so far. -/
structure ParentScan where
  stack : List Nat
  pending : Bool
  reaches : Bool

/-- The scan of one record's parents; `none` is the source's early `return false`. -/
def scanParents (records : List OperationRecord) (since : OpId) (marks : Nat → Mark) :
    List OpId → ParentScan → Option ParentScan
  | [], scan => some scan
  | p :: parents, scan =>
    if p = since then scanParents records since marks parents { scan with reaches := true }
    else
      match indexOf records p with
      | none => none
      | some j =>
        match marks j with
        | .descends =>
          scanParents records since marks parents { scan with reaches := true }
        | .unvisited =>
          scanParents records since marks parents
            { scan with stack := j :: scan.stack, pending := true }
        | .inProgress | .apart => none

/-- The search from one start, the stack's top first; `none` is the source's `return false`. -/
def continuesLoop (records : List OperationRecord) (since : OpId) :
    Nat → (Nat → Mark) → List Nat → Option (Nat → Mark)
  | _, marks, [] => some marks
  | 0, _, _ :: _ => none
  | fuel + 1, marks, i :: stack =>
    if (marks i).done then continuesLoop records since fuel marks stack
    else if (parentsAt records i).isEmpty then
      continuesLoop records since fuel (Function.update marks i .apart) stack
    else
      let marks := Function.update marks i .inProgress
      match scanParents records since marks (parentsAt records i) ⟨i :: stack, false, false⟩ with
      | none => none
      | some scan =>
        if scan.pending then continuesLoop records since fuel marks scan.stack
        else if scan.reaches then
          continuesLoop records since fuel (Function.update marks i .descends) stack
        else none

/-- Fuel for the search from one start: every record is scanned, and every parent pushed, once. -/
def continuesFuel (records : List OperationRecord) : Nat :=
  records.length + (records.map fun record => record.op.parents.length).sum + 1

/-- **Whether the records are exactly a continuation of `since`**: every one descends from it through
parents that are records too, or `since` itself. -/
def continuesFrom (records : List OperationRecord) (since : OpId) : Bool :=
  ((List.range records.length).foldlM
    (fun marks start => continuesLoop records since (continuesFuel records) marks [start])
    (fun _ => Mark.unvisited)).isSome

/-! ## `lca` and `opsSince` -/

/-- **A common ancestor**: the first of `b`'s ancestors, newest first, that is one of `a`'s. -/
def lca (log : OpLog) (a b : OpId) : Option OpId :=
  let aAnc := (log.walkBack a none).map OperationRecord.opId
  ((log.walkBack b none).find? fun record => aAnc.contains record.opId).map OperationRecord.opId

/-- **The operations in `head`'s history that are not in `base`'s**, newest first. -/
def opsSince (log : OpLog) (head : OpId) (base : Option OpId) : List OperationRecord :=
  let exclude :=
    match base with
    | some b => (log.walkBack b none).map OperationRecord.opId
    | none => []
  (log.walkBack head none).filter fun record => !exclude.contains record.opId

/-! ## The walks are the breadth-first walk of the DAG -/

section Walks

variable (log : OpLog)

/-- The ids the log holds. -/
def ids : Finset OpId := log.records.keys.toFinset

variable {log}

theorem mem_ids {id : OpId} : id ∈ log.ids ↔ log.get id ≠ none := by
  unfold ids get
  rw [List.mem_toFinset, mem_keys, ← isSome_getElem?_iff_mem, isSome_iff_ne_none]

theorem parentsOf_ne_none {id : OpId} : log.parentsOf id ≠ none ↔ log.get id ≠ none := by
  unfold parentsOf
  rw [Ne, map_eq_none_iff]

theorem edge_iff {id parent : OpId} : Edge log.parentsOf id parent ↔
    ∃ record, log.get id = some record ∧ parent ∈ record.op.parents := by
  unfold Edge parentsOf
  constructor
  · rintro ⟨ps, hps, hp⟩
    obtain ⟨record, hrecord, rfl⟩ := map_eq_some_iff.mp hps
    exact ⟨record, hrecord, hp⟩
  · rintro ⟨record, hrecord, hp⟩
    exact ⟨record.op.parents, by rw [hrecord, map_some], hp⟩

theorem walkCost_le_walkFuel (head : OpId) : walkCost log.parentsOf log.ids ∅ [head] ≤ log.walkFuel := by
  have hkeys : log.records.toList.map (fun entry => entry.2.op.parents.length) =
      log.records.keys.map fun id => ((log.parentsOf id).getD []).length := by
    rw [← map_fst_toList_eq_keys, List.map_map]
    refine List.map_congr_left fun entry hentry => ?_
    have hget : log.records[entry.1]? = some entry.2 :=
      mem_toList_iff_getElem?_eq_some.mp hentry
    simp [parentsOf, get, hget]
  unfold walkCost walkFuel ids
  rw [hkeys, Finset.sdiff_empty, List.sum_toFinset _ nodup_keys]
  simp

end Walks

end OpLog

end LexLang.Vcs
