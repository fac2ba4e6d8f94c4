/-
# LexLang.Graph.HeapOrder — Kahn's loop over any items, heap order and parallel edges

The loop of Kahn's algorithm, once for every use: a table of in-degrees, a heap of the items whose
count is zero, as its list in the order `r`, and a list of children for every item. An item may list
a predecessor several times: it is then among that predecessor's children as often.

`heapLoop_append` says which order comes out, whatever the table, the heap and the children lists
look like: the earliest-ready order (`LexLang.Graph.Earliest`) of the items listed in heap order.
-/
import LexLang.Graph.Earliest
import Mathlib.Data.List.Sort

namespace LexLang.Graph

open Function List Std

variable {β : Type*} [DecidableEq β] (r : β → β → Prop) [DecidableRel r]

/-! ## The loop -/

/-- Take one off the count of `c`; at zero, push it on the heap. -/
def releaseBy (state : (β → Nat) × List β) (c : β) : (β → Nat) × List β :=
  let indegree := Function.update state.1 c (state.1 c - 1)
  (indegree, if indegree c = 0 then state.2.orderedInsert r c else state.2)

/-- Pop the heap's first item and release its children, until the heap is empty. -/
def heapLoop (children : β → List β) : Nat → (β → Nat) → List β → List β
  | 0, _, _ => []
  | _ + 1, _, [] => []
  | fuel + 1, indegree, i :: ready =>
    let state := (children i).foldl (releaseBy r) (indegree, ready)
    i :: heapLoop children fuel state.1 state.2

/-- The blocking relation of a predecessor table: `y` blocks `x` when `x` lists it. -/
def blockedBy (preds : β → List β) (y x : β) : Bool := (preds x).contains y

/-! ## What releasing the children of a popped item does -/

section Release

variable {r}

/-- Every entry takes one off the count of the item it names. -/
theorem releaseBy_fst : ∀ (cs : List β) (state : (β → Nat) × List β) (c : β),
    (cs.foldl (releaseBy r) state).1 c = state.1 c - cs.count c
  | [], state, c => by simp
  | a :: cs, state, c => by
    rw [foldl_cons, releaseBy_fst cs]
    by_cases hca : a = c
    · subst hca
      rw [count_cons_self]
      simp only [releaseBy, update_self]
      omega
    · rw [count_cons_of_ne hca]
      simp only [releaseBy, update_of_ne (Ne.symm hca)]

/-- The items named as often as they are counted are pushed, each once. -/
theorem releaseBy_snd_perm : ∀ (cs : List β) (state : (β → Nat) × List β),
    (∀ c ∈ cs, cs.count c ≤ state.1 c) →
    ((cs.foldl (releaseBy r) state).2).Perm
      (state.2 ++ cs.dedup.filter fun c => state.1 c = cs.count c)
  | [], state, _ => by simp
  | a :: cs, state, hle => by
    have hother : ∀ c, c ≠ a → (releaseBy r state a).1 c = state.1 c := fun c hc => by
      simp only [releaseBy, update_of_ne hc]
    have hself : (releaseBy r state a).1 a = state.1 a - 1 := by
      simp only [releaseBy, update_self]
    have hcount : 1 + cs.count a ≤ state.1 a := by
      have := hle a mem_cons_self
      rw [count_cons_self] at this
      omega
    have hnext : ∀ c ∈ cs, cs.count c ≤ (releaseBy r state a).1 c := by
      intro c hc
      by_cases hca : c = a
      · rw [hca, hself]
        omega
      · rw [hother c hca]
        have := hle c (mem_cons_of_mem _ hc)
        rwa [count_cons_of_ne (Ne.symm hca)] at this
    -- an entry further on names the same items, and they are as far from zero as before
    have hsame : (cs.dedup.filter fun c => (releaseBy r state a).1 c = cs.count c) =
        cs.dedup.filter fun c => state.1 c = (a :: cs).count c := by
      refine filter_congr fun c _ => ?_
      by_cases hca : c = a
      · rw [hca, hself, count_cons_self]
        exact decide_eq_decide.mpr (by omega)
      · rw [hother c hca, count_cons_of_ne (Ne.symm hca)]
    rw [foldl_cons]
    refine (releaseBy_snd_perm cs _ hnext).trans ?_
    rw [hsame]
    by_cases hmem : a ∈ cs
    · have hpos : 0 < cs.count a := count_pos_iff.mpr hmem
      have hnot : ¬ (state.1 a - 1 = 0) := by omega
      rw [dedup_cons_of_mem hmem]
      simp only [releaseBy, update_self, hnot, if_false]
      exact Perm.refl _
    · have hzero : cs.count a = 0 := count_eq_zero.mpr hmem
      rw [dedup_cons_of_notMem hmem]
      by_cases hone : state.1 a = 1
      · have hpush : decide (state.1 a = (a :: cs).count a) = true := by
          rw [count_cons_self]
          exact decide_eq_true (by omega)
        rw [filter_cons_of_pos (p := fun c => decide (state.1 c = (a :: cs).count c)) hpush]
        simp only [releaseBy, update_self, hone, Nat.sub_self, if_true]
        exact ((perm_orderedInsert r a state.2).append_right _).trans perm_middle.symm
      · have hpush : ¬ decide (state.1 a = (a :: cs).count a) = true := by
          rw [count_cons_self, decide_eq_true_iff]
          omega
        have hnot : ¬ (state.1 a - 1 = 0) := by omega
        rw [filter_cons_of_neg (p := fun c => decide (state.1 c = (a :: cs).count c)) hpush]
        simp only [releaseBy, update_self, hnot, if_false]
        exact Perm.refl _

theorem releaseBy_snd_sorted [IsTrans β r] [Std.Total r] : ∀ (cs : List β)
    (state : (β → Nat) × List β), state.2.Pairwise r →
    ((cs.foldl (releaseBy r) state).2).Pairwise r
  | [], _, h => h
  | a :: cs, state, h => by
    rw [foldl_cons]
    refine releaseBy_snd_sorted cs _ ?_
    simp only [releaseBy]
    split
    · exact h.orderedInsert a _
    · exact h

end Release

/-! ## The loop's invariant -/

section Loop

variable {r} [IsTrans β r] [Std.Total r] [Antisymm r]
variable {items : List β} {preds children : β → List β}

/-- **What ties the loop's table and heap to the items still to be placed.** -/
structure HeapState (r : β → β → Prop) (items : List β) (preds : β → List β) (rest : List β)
    (indegree : β → Nat) (ready : List β) : Prop where
  sorted : rest.Pairwise r
  nodup : rest.Nodup
  bounded : ∀ i ∈ rest, i ∈ items
  closed : ∀ c ∈ items, c ∉ rest → ∀ p ∈ preds c, p ∉ rest
  counts : ∀ c ∈ rest, indegree c = (preds c).countP fun p => decide (p ∈ rest)
  heap : ready = rest.filter fun i => decide (indegree i = 0)

namespace HeapState

variable {rest : List β} {indegree : β → Nat} {ready : List β}

variable (h : HeapState r items preds rest indegree ready)
include h

omit [DecidableRel r] [IsTrans β r] [Std.Total r] [Antisymm r] in
/-- An item is ready when nothing left blocks it. -/
theorem count_eq_zero_iff {c : β} (hc : c ∈ rest) : indegree c = 0 ↔ unblocked (blockedBy preds) rest c = true := by
  rw [h.counts c hc, countP_eq_zero, unblocked_iff]
  simp only [blockedBy, contains_eq_mem, decide_eq_true_eq, decide_eq_false_iff_not]
  exact ⟨fun hp y hy hyc => hp y hyc hy, fun hp p hpc hp' => hp p hp' hpc⟩

omit [DecidableRel r] [IsTrans β r] [Std.Total r] [Antisymm r] in
theorem head?_ready : rest.find? (unblocked (blockedBy preds) rest) = ready.head? := by
  rw [h.heap, head?_filter]
  refine find?_congr_mem fun c hc => ?_
  rw [Bool.eq_iff_iff, decide_eq_true_iff]
  exact (h.count_eq_zero_iff hc).symm

omit [DecidableRel r] [IsTrans β r] [Std.Total r] [Antisymm r] in
/-- Placing `i` takes its entries off every count. -/
theorem count_erase {i c : β} (hi : i ∈ rest)
    (hc : c ∈ rest) : ((preds c).countP fun p => decide (p ∈ rest.erase i)) = indegree c - (preds c).count i := by
  have hsplit : ((preds c).countP fun p => decide (p ∈ rest)) =
      ((preds c).countP fun p => decide (p ∈ rest.erase i)) + (preds c).count i := by
    induction preds c with
    | nil => rfl
    | cons p ps ih =>
      rw [countP_cons, countP_cons, count_cons, ih]
      by_cases hpi : p = i
      · subst hpi
        simp [hi, h.nodup.mem_erase_iff]
        omega
      · by_cases hpr : p ∈ rest <;> simp [hpi, hpr, h.nodup.mem_erase_iff]
        omega
  rw [h.counts c hc, hsplit, Nat.add_sub_cancel]

omit h

omit [DecidableRel r] [IsTrans β r] [Std.Total r] [Antisymm r] in
theorem head_ready {i : β} (h : HeapState r items preds rest indegree (i :: ready)) : i ∈ rest ∧ indegree i = 0 := by
  have hmem : i ∈ rest.filter fun i => decide (indegree i = 0) := h.heap ▸ mem_cons_self
  simpa using hmem

omit [DecidableRel r] [IsTrans β r] [Std.Total r] [Antisymm r] in
theorem mem_tail_ready {i c : β} (h : HeapState r items preds rest indegree (i :: ready)) :
    c ∈ ready ↔ c ∈ rest.erase i ∧ indegree c = 0 := by
  have hnd : (i :: ready).Nodup := by
    rw [h.heap]
    exact h.nodup.filter _
  have hiff : c ∈ i :: ready ↔ c ∈ rest ∧ indegree c = 0 := by
    rw [h.heap]
    simp
  rw [mem_cons] at hiff
  rw [h.nodup.mem_erase_iff]
  constructor
  · intro hc
    exact ⟨⟨fun hci => (nodup_cons.mp hnd).1 (hci ▸ hc), (hiff.mp (.inr hc)).1⟩,
      (hiff.mp (.inr hc)).2⟩
  · rintro ⟨⟨hci, hc⟩, h0⟩
    exact (hiff.mpr ⟨hc, h0⟩).resolve_left hci

/-- **One pop keeps the invariant.** -/
theorem pop {i : β} (h : HeapState r items preds rest indegree (i :: ready))
    (hchildren : ∀ i ∈ items, ∀ c, (children i).count c = if c ∈ items then (preds c).count i else 0) :
    HeapState r items preds (rest.erase i) ((children i).foldl (releaseBy r) (indegree, ready)).1
      ((children i).foldl (releaseBy r) (indegree, ready)).2 := by
  obtain ⟨hi, hzero⟩ := h.head_ready
  have hunblocked : ∀ y ∈ rest, y ∉ preds i := by
    have := unblocked_iff.mp ((h.count_eq_zero_iff hi).mp hzero)
    simpa [blockedBy] using this
  have hcount : ∀ c ∈ rest, (children i).count c = (preds c).count i := by
    intro c hc
    rw [hchildren i (h.bounded i hi), if_pos (h.bounded c hc)]
  -- a child of `i` is still to be placed, since it waits for `i`
  have hchild : ∀ c ∈ children i, c ∈ rest ∧ i ∈ preds c := by
    intro c hc
    have hpos : 0 < (children i).count c := count_pos_iff.mpr hc
    rw [hchildren i (h.bounded i hi)] at hpos
    split at hpos
    · rename_i hitem
      have hic : i ∈ preds c := count_pos_iff.mp hpos
      by_contra hno
      exact h.closed c hitem (fun hcr => hno ⟨hcr, hic⟩) i hic hi
    · omega
  have hle : ∀ c ∈ rest, (preds c).count i ≤ indegree c := by
    intro c hc
    rw [h.counts c hc]
    exact countP_mono_left fun p _ hp => by
      rw [beq_iff_eq] at hp
      exact decide_eq_true (hp ▸ hi)
  have hmono : (rest.erase i).Sublist rest := erase_sublist
  have hcounts : ∀ c ∈ rest.erase i,
      ((children i).foldl (releaseBy r) (indegree, ready)).1 c =
        (preds c).countP fun p => decide (p ∈ rest.erase i) := by
    intro c hc
    rw [releaseBy_fst, hcount c (hmono.mem hc), h.count_erase hi (hmono.mem hc)]
  have hperm := releaseBy_snd_perm (children i) (indegree, ready) (r := r) (fun c hc => by
    rw [hcount c (hchild c hc).1]
    exact hle c (hchild c hc).1)
  refine ⟨h.sorted.sublist hmono, h.nodup.sublist hmono, fun c hc => h.bounded c (hmono.mem hc),
    fun c hci hcr p hp hpr => ?_, hcounts, ?_⟩
  · by_cases hce : c = i
    · exact hunblocked p (hmono.mem hpr) (hce ▸ hp)
    · exact h.closed c hci (fun hc => hcr (h.nodup.mem_erase_iff.mpr ⟨hce, hc⟩)) p hp
        (hmono.mem hpr)
  · -- both heaps are in order and hold each of the same items once
    have hready : ready.Nodup ∧ ready.Pairwise r := by
      have hnd : (i :: ready).Nodup := h.heap ▸ h.nodup.filter _
      have hsorted : (i :: ready).Pairwise r := h.heap ▸ h.sorted.filter _
      exact ⟨(nodup_cons.mp hnd).2, (pairwise_cons.mp hsorted).2⟩
    have hapart : ∀ c ∈ ready, c ∉ children i := by
      intro c hc hci
      have hcr := (h.mem_tail_ready.mp hc).1
      have hfree := unblocked_iff.mp ((h.count_eq_zero_iff (hmono.mem hcr)).mp
        (h.mem_tail_ready.mp hc).2) i hi
      simp [blockedBy, (hchild c hci).2] at hfree
    refine Perm.eq_of_pairwise' (releaseBy_snd_sorted _ _ hready.2)
      ((h.sorted.sublist hmono).filter _) (hperm.trans ?_)
    refine (perm_ext_iff_of_nodup ?_ ((h.nodup.sublist hmono).filter _)).mpr fun c => ?_
    · refine nodup_append'.mpr ⟨hready.1, (nodup_dedup _).filter _, fun c hc hc' => ?_⟩
      exact hapart c hc (mem_dedup.mp (mem_filter.mp hc').1)
    · rw [mem_append, h.mem_tail_ready, mem_filter, mem_filter, mem_dedup,
        releaseBy_fst, decide_eq_true_iff, decide_eq_true_iff]
      show (c ∈ rest.erase i ∧ indegree c = 0) ∨
        (c ∈ children i ∧ indegree c = (children i).count c) ↔
          c ∈ rest.erase i ∧ indegree c - (children i).count c = 0
      constructor
      · rintro (⟨hc, h0⟩ | ⟨hc, heq⟩)
        · exact ⟨hc, by omega⟩
        · have hcr := (hchild c hc).1
          refine ⟨h.nodup.mem_erase_iff.mpr ⟨?_, hcr⟩, by omega⟩
          rintro rfl
          exact hunblocked c hi (hchild c hc).2
      · rintro ⟨hc, h0⟩
        by_cases hci : c ∈ children i
        · refine .inr ⟨hci, ?_⟩
          have hbound := hle c (hmono.mem hc)
          rw [← hcount c (hmono.mem hc)] at hbound
          omega
        · rw [count_eq_zero.mpr hci] at h0
          exact .inl ⟨hc, by omega⟩

end HeapState

/-- The loop, with what it leaves, is the earliest-ready order of the items it started from. -/
theorem heapLoop_append (hchildren : ∀ i ∈ items, ∀ c, (children i).count c =
      if c ∈ items then (preds c).count i else 0) :
    ∀ (fuel : Nat) (rest : List β) (indegree : β → Nat) (ready : List β),
      HeapState r items preds rest indegree ready → rest.length ≤ fuel →
      heapLoop r children fuel indegree ready ++
          (rest.filter fun i => !(heapLoop r children fuel indegree ready).contains i) =
        earliest (blockedBy preds) rest
  | 0, rest, _, _, _, hfuel => by
    obtain rfl := length_eq_zero_iff.mp (Nat.le_zero.mp hfuel)
    rfl
  | fuel + 1, rest, indegree, [], h, _ => by
    rw [earliest_of_none h.head?_ready]
    simp [heapLoop]
  | fuel + 1, rest, indegree, i :: ready, h, hfuel => by
    have hfind := h.head?_ready
    have hi : i ∈ rest := mem_of_find?_eq_some hfind
    have hlen : (rest.erase i).length ≤ fuel := by
      rw [length_erase_of_mem hi]
      omega
    rw [earliest_of_some hfind, ← heapLoop_append hchildren fuel _ _ _ (h.pop hchildren) hlen,
      h.nodup.erase_eq_filter, filter_filter]
    simp only [heapLoop, cons_append, contains_cons, List.cons.injEq, true_and, append_cancel_left_eq]
    refine filter_congr fun c _ => ?_
    by_cases hci : c = i <;> simp [hci, bne, Bool.and_comm]

/-- **Where no item is caught in a cycle**, the loop alone is the earliest-ready order. -/
theorem heapLoop_eq_earliest {rank : β → ℕ} (hchildren : ∀ i ∈ items, ∀ c, (children i).count c =
      if c ∈ items then (preds c).count i else 0)
    (hrank : ∀ x ∈ items, ∀ y ∈ items, y ∈ preds x → rank y < rank x) :
    ∀ (fuel : Nat) (rest : List β) (indegree : β → Nat) (ready : List β),
      HeapState r items preds rest indegree ready → rest.length ≤ fuel →
      heapLoop r children fuel indegree ready = earliest (blockedBy preds) rest
  | 0, rest, _, _, _, hfuel => by
    obtain rfl := length_eq_zero_iff.mp (Nat.le_zero.mp hfuel)
    rfl
  | fuel + 1, rest, indegree, [], h, _ => by
    have hnil : rest = [] := by
      by_contra hne
      have hranked : ∀ x ∈ rest, ∀ y ∈ rest, blockedBy preds y x = true → rank y < rank x :=
        fun x hx y hy hyx =>
          hrank x (h.bounded x hx) y (h.bounded y hy) (by simpa [blockedBy] using hyx)
      exact exists_unblocked hranked hne h.head?_ready
    subst hnil
    rfl
  | fuel + 1, rest, indegree, i :: ready, h, hfuel => by
    have hfind := h.head?_ready
    have hlen : (rest.erase i).length ≤ fuel := by
      rw [length_erase_of_mem (mem_of_find?_eq_some hfind)]
      omega
    rw [earliest_of_some hfind, ← heapLoop_eq_earliest hchildren hrank fuel _ _ _ (h.pop hchildren) hlen]
    rfl

end Loop

end LexLang.Graph
