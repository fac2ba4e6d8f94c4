/-
# LexLang.Transition.Footprint — operations that keep to their own keys

A state maps keys to values, and an operation reads and writes at the keys it touches and nowhere
else. Operations that touch different keys do not get in each other's way: run one after another, each
does what it would have done on the state they all started from.
-/
import Mathlib.Data.List.Basic

namespace LexLang.Transition

open List

variable {κ β ο : Type} {step : (κ → β) → ο → κ → β} {touches : ο → List κ}

/-- **An operation keeps to the keys it touches**: the others stay as they are, and what it leaves at
its own depends on its own. -/
structure Footprint (step : (κ → β) → ο → κ → β) (touches : ο → List κ) : Prop where
  frame : ∀ state o key, key ∉ touches o → step state o key = state key
  within : ∀ state state' o, (∀ key ∈ touches o, state key = state' key) →
    ∀ key ∈ touches o, step state o key = step state' o key

/-- No two of the operations touch one key. -/
def Apart (touches : ο → List κ) (os : List ο) : Prop :=
  os.Pairwise fun o o' => ∀ key ∈ touches o, key ∉ touches o'

namespace Footprint

/-- A key that no operation touches stays as it is. -/
theorem foldl_of_untouched (h : Footprint step touches) {key : κ} :
    ∀ {os : List ο} (state : κ → β), (∀ o ∈ os, key ∉ touches o) →
      os.foldl step state key = state key
  | [], _, _ => rfl
  | o :: os, state, hos => by
    rw [foldl_cons, h.foldl_of_untouched _ fun o' ho' => hos o' (mem_cons_of_mem o ho')]
    exact h.frame state o key (hos o mem_cons_self)

/-- What an operation finds at its own keys is what was there before all of them. -/
theorem foldl_before (h : Footprint step touches) {before after : List ο} {o : ο}
    (hapart : Apart touches (before ++ o :: after)) (state : κ → β) :
    ∀ key ∈ touches o, before.foldl step state key = state key := by
  intro key hkey
  apply h.foldl_of_untouched
  intro o' ho' htouched
  have hcross := (pairwise_append.mp hapart).2.2 o' ho' o mem_cons_self
  exact hcross key htouched hkey

/-- **Each operation does what it would have done alone.** -/
theorem foldl_eq_step (h : Footprint step touches) {os : List ο} (hapart : Apart touches os)
    (state : κ → β) {o : ο} (ho : o ∈ os) : ∀ key ∈ touches o, os.foldl step state key = step state o key := by
  obtain ⟨before, after, rfl⟩ := append_of_mem ho
  intro key hkey
  have hafter : ∀ o' ∈ after, key ∉ touches o' := by
    intro o' ho'
    have htail := (pairwise_append.mp hapart).2.1
    exact (pairwise_cons.mp htail).1 o' ho' key hkey
  rw [foldl_append, foldl_cons, h.foldl_of_untouched _ hafter]
  exact h.within _ _ o (h.foldl_before hapart state) key hkey

end Footprint

end LexLang.Transition
