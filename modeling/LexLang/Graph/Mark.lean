/-
# LexLang.Graph.Mark — depth-first marking with an explicit stack

The loop every mark phase has: pop an item, mark and push those of its successors that are not
marked yet.
-/
import Mathlib.Data.Finset.Card

namespace LexLang.Graph

open Finset List Relation

variable {α : Type*} [DecidableEq α] (next : α → List α)

/-! ## The loop -/

/-- Mark and push one successor, unless it is marked. -/
def markOne (state : Finset α × List α) (p : α) : Finset α × List α :=
  if p ∈ state.1 then state else (insert p state.1, p :: state.2)

/-- Pop the stack until it is empty. -/
def markLoop : Nat → Finset α → List α → Finset α
  | 0, marked, _ => marked
  | _ + 1, marked, [] => marked
  | fuel + 1, marked, i :: stack =>
    let state := (next i).foldl markOne (marked, stack)
    markLoop fuel state.1 state.2

/-- **Everything marked from `start`**; `fuel` bounds the pops. -/
def markFrom (fuel : Nat) (start : α) : Finset α := markLoop next fuel {start} [start]

variable {next}

/-! ## What one pop does -/

theorem foldl_markOne : ∀ (ps : List α) (marked : Finset α) (stack : List α),
    ∃ pushed : List α, ps.foldl markOne (marked, stack) = (marked ∪ ps.toFinset, pushed ++ stack) ∧
      pushed.Nodup ∧ ∀ p, p ∈ pushed ↔ p ∈ ps ∧ p ∉ marked
  | [], marked, stack => ⟨[], by simp⟩
  | p :: ps, marked, stack => by
    rw [foldl_cons, toFinset_cons]
    by_cases hp : p ∈ marked
    · obtain ⟨pushed, hfold, hnd, hmem⟩ := foldl_markOne ps marked stack
      refine ⟨pushed, ?_, hnd, fun q => ?_⟩
      · show ps.foldl markOne (markOne (marked, stack) p) = _
        simp only [markOne, hp, if_true]
        rw [hfold, union_insert, insert_eq_of_mem (Finset.mem_union_left _ hp)]
      · rw [hmem, List.mem_cons]
        constructor
        · exact fun h => ⟨.inr h.1, h.2⟩
        · rintro ⟨rfl | hq, hno⟩
          · exact absurd hp hno
          · exact ⟨hq, hno⟩
    · obtain ⟨pushed, hfold, hnd, hmem⟩ := foldl_markOne ps (insert p marked) (p :: stack)
      have hnew : p ∉ pushed := fun h => ((hmem p).mp h).2 (Finset.mem_insert_self _ _)
      refine ⟨pushed ++ [p], ?_, ?_, fun q => ?_⟩
      · show ps.foldl markOne (markOne (marked, stack) p) = _
        simp only [markOne, hp, if_false]
        rw [hfold, union_insert, insert_union, append_assoc]
        rfl
      · exact nodup_append'.mpr ⟨hnd, nodup_singleton _, by simpa using hnew⟩
      · rw [mem_append, List.mem_singleton, hmem, mem_insert, List.mem_cons]
        by_cases hqp : q = p
        · simp [hqp, hp]
        · simp [hqp]

/-! ## The invariant of the loop -/

/-- One step along a successor list. -/
def Next (next : α → List α) (a b : α) : Prop := b ∈ next a

/-- **What holds while the stack is worked off**: whatever is marked and off the stack has had its
successors marked. -/
structure MarkState (next : α → List α) (start : α) (marked : Finset α) (stack : List α) :
    Prop where
  start_mem : start ∈ marked
  stacked : ∀ a ∈ stack, a ∈ marked
  nodup : stack.Nodup
  sound : ∀ a ∈ marked, ReflTransGen (Next next) start a
  closed : ∀ a ∈ marked, a ∉ stack → ∀ b ∈ next a, b ∈ marked

namespace MarkState

variable {start : α} {marked : Finset α} {stack : List α}

omit [DecidableEq α] in
theorem init (start : α) : MarkState next start {start} [start] where
  start_mem := Finset.mem_singleton_self _
  stacked := by simp
  nodup := nodup_singleton _
  sound := by
    intro a ha
    rw [Finset.mem_singleton.mp ha]
  closed := by
    intro a ha hno
    simp [Finset.mem_singleton.mp ha] at hno

theorem pop {i : α} (h : MarkState next start marked (i :: stack)) :
    MarkState next start ((next i).foldl markOne (marked, stack)).1 ((next i).foldl markOne (marked, stack)).2 := by
  obtain ⟨pushed, hfold, hnd, hmem⟩ := foldl_markOne (next i) marked stack
  have hi : i ∈ marked := h.stacked i List.mem_cons_self
  obtain ⟨histack, hstack⟩ := nodup_cons.mp h.nodup
  rw [hfold]
  refine ⟨Finset.mem_union_left _ h.start_mem, fun a ha => ?_, ?_, fun a ha => ?_,
    fun a ha hno b hb => ?_⟩
  · rcases mem_append.mp ha with ha | ha
    · exact Finset.mem_union_right _ (mem_toFinset.mpr ((hmem a).mp ha).1)
    · exact Finset.mem_union_left _ (h.stacked a (List.mem_cons_of_mem _ ha))
  · refine nodup_append'.mpr ⟨hnd, hstack, fun a ha hs => ?_⟩
    exact ((hmem a).mp ha).2 (h.stacked a (List.mem_cons_of_mem _ hs))
  · rcases mem_union.mp ha with ha | ha
    · exact h.sound a ha
    · exact (h.sound i hi).tail (mem_toFinset.mp ha)
  · rw [mem_append, not_or] at hno
    have hold : a ∈ marked := by
      rcases mem_union.mp ha with ha | ha
      · exact ha
      · by_contra hnew
        exact hno.1 ((hmem a).mpr ⟨mem_toFinset.mp ha, hnew⟩)
    by_cases hai : a = i
    · exact Finset.mem_union_right _ (mem_toFinset.mpr (hai ▸ hb))
    · refine Finset.mem_union_left _ (h.closed a hold ?_ b hb)
      intro hs
      rcases List.mem_cons.mp hs with hs | hs
      · exact hai hs
      · exact hno.2 hs

omit [DecidableEq α] in
theorem mem_iff (h : MarkState next start marked []) (a : α) :
    a ∈ marked ↔ ReflTransGen (Next next) start a := by
  refine ⟨h.sound a, fun hreach => ?_⟩
  induction hreach with
  | refl => exact h.start_mem
  | tail _ hbc ih => exact h.closed _ ih (by simp) _ hbc

end MarkState

/-! ## The loop ends -/

/-- With a unit of fuel for every item in reach, the loop works the whole stack off. -/
theorem mem_markLoop_iff {start : α} {U : Finset α} (hU : ∀ a ∈ U, ∀ b ∈ next a, b ∈ U) :
    ∀ (fuel : Nat) (marked : Finset α) (stack : List α), MarkState next start marked stack →
      marked ⊆ U → stack.length + (U \ marked).card ≤ fuel →
      ∀ a, a ∈ markLoop next fuel marked stack ↔ ReflTransGen (Next next) start a
  | 0, marked, stack, h, _, hfuel => by
    obtain rfl : stack = [] := length_eq_zero_iff.mp (by omega)
    exact h.mem_iff
  | _ + 1, marked, [], h, _, _ => h.mem_iff
  | fuel + 1, marked, i :: stack, h, hsub, hfuel => by
    obtain ⟨pushed, hfold, hnd, hmem⟩ := foldl_markOne (next i) marked stack
    have hi : i ∈ U := hsub (h.stacked i List.mem_cons_self)
    have hpop := h.pop
    show ∀ a, a ∈ markLoop next fuel ((next i).foldl markOne (marked, stack)).1
      ((next i).foldl markOne (marked, stack)).2 ↔ _
    rw [hfold] at hpop ⊢
    refine mem_markLoop_iff hU fuel _ _ hpop (fun a ha => ?_) ?_
    · rcases mem_union.mp ha with ha | ha
      · exact hsub ha
      · exact hU i hi a (mem_toFinset.mp ha)
    · -- every push is paid for by an item that was not marked before
      have hcard : pushed.length + (U \ (marked ∪ (next i).toFinset)).card ≤
          (U \ marked).card := by
        rw [← toFinset_card_of_nodup hnd, ← card_union_of_disjoint]
        · apply card_le_card
          intro a ha
          rcases mem_union.mp ha with ha | ha
          · have := (hmem a).mp (mem_toFinset.mp ha)
            exact mem_sdiff.mpr ⟨hU i hi a this.1, this.2⟩
          · rw [mem_sdiff, mem_union, not_or] at ha
            exact mem_sdiff.mpr ⟨ha.1, ha.2.1⟩
        · rw [Finset.disjoint_left]
          intro a ha hno
          have := (hmem a).mp (mem_toFinset.mp ha)
          rw [mem_sdiff, mem_union, not_or, mem_toFinset] at hno
          exact hno.2.2 this.1
      show (pushed ++ stack).length + (U \ (marked ∪ (next i).toFinset)).card ≤ fuel
      rw [length_append]
      rw [length_cons] at hfuel
      omega

/-- **What is marked is what the start reaches.** -/
theorem mem_markFrom_iff {start : α} {U : Finset α} (hU : ∀ a ∈ U, ∀ b ∈ next a, b ∈ U)
    (hstart : start ∈ U) {fuel : Nat} (hfuel : U.card ≤ fuel) (a : α) :
    a ∈ markFrom next fuel start ↔ ReflTransGen (Next next) start a := by
  refine mem_markLoop_iff hU fuel _ _ (MarkState.init start) (by simpa using hstart) ?_ a
  rw [card_sdiff_of_subset (by simpa using hstart), card_singleton,
    length_singleton]
  have : 0 < U.card := card_pos.mpr ⟨start, hstart⟩
  omega

end LexLang.Graph
