/-
# LexLang.Graph.Kahn — Kahn's algorithm with an in-degree table and a min-heap

The textbook loop over the indices `0 … n-1`: count the distinct predecessors of every index, keep
the indices with count zero in a min-heap, pop the least, and take one off the count of each of its
successors. The heap is its ascending list, so that a pop takes the head.

It is the heap loop of `LexLang.Graph.HeapOrder` in ascending order, so the earliest-ready order of
`0 … n-1` comes out (`kahnOrder_eq_earliest`).
-/
import LexLang.Graph.HeapOrder
import Mathlib.Data.List.Range

namespace LexLang.Graph

open List

variable (n : Nat) (preds : Nat → List Nat)

/-! ## The loop -/

/-- The indices that list `i` as a predecessor, ascending. -/
def successors (i : Nat) : List Nat := (range n).filter fun c => (preds c).contains i

/-- Take one off the count of `c`; at zero, push it on the heap. -/
def release (state : (Nat → Nat) × List Nat) (c : Nat) : (Nat → Nat) × List Nat :=
  let indegree := Function.update state.1 c (state.1 c - 1)
  (indegree, if indegree c = 0 then state.2.orderedInsert (· ≤ ·) c else state.2)

/-- Pop the least ready index until the heap is empty. -/
def kahnLoop : Nat → (Nat → Nat) → List Nat → List Nat
  | 0, _, _ => []
  | _ + 1, _, [] => []
  | fuel + 1, indegree, i :: ready =>
    let state := (successors n preds i).foldl release (indegree, ready)
    i :: kahnLoop fuel state.1 state.2

/-- **Kahn's order** of `0 … n-1`; indices a cycle keeps from ever being ready come last. -/
def kahnOrder : List Nat :=
  let indegree := fun i => (preds i).length
  let order := kahnLoop n preds n indegree ((range n).filter fun i => indegree i = 0)
  if order.length < n then order ++ (range n).filter fun i => !order.contains i else order

/-! ## Which order comes out -/

section Order

variable {n : Nat} {preds : Nat → List Nat}

/-- The loop is the heap loop in ascending order, over the successor lists. -/
theorem kahnLoop_eq_heapLoop : ∀ (fuel : Nat) (indegree : Nat → Nat) (ready : List Nat),
    kahnLoop n preds fuel indegree ready =
      heapLoop (· ≤ ·) (successors n preds) fuel indegree ready
  | 0, _, _ => rfl
  | _ + 1, _, [] => rfl
  | fuel + 1, indegree, i :: ready => by
    unfold kahnLoop heapLoop
    exact congrArg (i :: ·) (kahnLoop_eq_heapLoop fuel _ _)

/-- A successor list names an index once, when the index lists its predecessor. -/
theorem count_successors (hnodup : ∀ c, c < n → (preds c).Nodup) (i c : Nat) :
    (successors n preds i).count c = if c ∈ range n then (preds c).count i else 0 := by
  have hnd : (successors n preds i).Nodup := nodup_range.filter _
  rw [hnd.count]
  by_cases hc : c < n
  · rw [if_pos (mem_range.mpr hc), (hnodup c hc).count]
    exact if_congr (by simp [successors, hc]) rfl rfl
  · rw [if_neg (fun h => hc (mem_range.mp h)), if_neg (by simp [successors, hc])]

/-- **Kahn's order is the earliest-ready order.** -/
theorem kahnOrder_eq_earliest (hnodup : ∀ c, c < n → (preds c).Nodup) (hlt : ∀ c, c < n → ∀ p ∈ preds c, p < n) :
    kahnOrder n preds = earliest (blockedBy preds) (range n) := by
  have hcounts : ∀ c ∈ range n,
      (preds c).length = (preds c).countP fun p => decide (p ∈ range n) := by
    intro c hc
    refine (countP_eq_length.mpr fun p hp => decide_eq_true ?_).symm
    exact mem_range.mpr (hlt c (mem_range.mp hc) p hp)
  have hstart : HeapState (· ≤ ·) (range n) preds (range n) (fun i => (preds i).length)
      ((range n).filter fun i => decide ((preds i).length = 0)) :=
    ⟨pairwise_lt_range.imp Nat.le_of_lt, nodup_range, fun _ h => h,
      fun _ hc hcr => absurd hc hcr, hcounts, rfl⟩
  have hrun := heapLoop_append (fun i _ => count_successors hnodup i) n _ _ _ hstart (by simp)
  rw [← hrun, ← kahnLoop_eq_heapLoop]
  simp only [kahnOrder]
  split
  · rfl
  · rename_i hfull
    have hlen := congrArg List.length hrun
    rw [← kahnLoop_eq_heapLoop, (earliest_perm _).length_eq, length_append, length_range] at hlen
    have hnil := length_eq_zero_iff.mp
      (by omega : ((range n).filter fun i =>
        !(kahnLoop n preds n (fun i => (preds i).length)
          ((range n).filter fun i => (preds i).length = 0)).contains i).length = 0)
    rw [hnil, append_nil]

end Order

end LexLang.Graph
