/-
# LexLang.Graph.Suspended — an explicit stack for a search that finishes a node after its successors

Such a search opens the node on top of its stack: it pushes the successors that are not done yet, and
leaves the node below them, to come back to once they are. A node may stand on the stack several times;
it is opened once. `Suspended` says what an opened node that is not done waits for. It is kept when a
done node is popped (`Suspended.pop`) and when a node is opened (`Suspended.push`), and in an acyclic
graph the search is never back at a node too early (`Suspended.ready`).

`stackCost` bounds the steps. Nothing here names a program.
-/
import LexLang.Graph.Walk

namespace LexLang.Graph

open Finset List Relation

variable {α : Type*} {next : α → Option (List α)}

/-! ## What an opened node waits for -/

/-- **The node waits on the stack**: what lies above it is below it in the graph, and each of its
successors is done or lies above it. -/
def Waits (next : α → Option (List α)) (done : Set α) (stack : List α) (a : α) : Prop :=
  ∃ above below, stack = above ++ a :: below ∧ (∀ b ∈ above, TransGen (Edge next) a b) ∧
    ∀ b, Edge next a b → b ∈ done ∨ b ∈ above

/-- Every opened node that is not done waits on the stack. -/
def Suspended (next : α → Option (List α)) (opened done : Set α) (stack : List α) : Prop :=
  ∀ a ∈ opened, a ∉ done → Waits next done stack a

namespace Suspended

variable {opened done done' : Set α} {pending stack : List α} {a : α}

theorem start (next : α → Option (List α)) (done : Set α) (stack : List α) : Suspended next ∅ done stack :=
  fun _ ha => absurd ha (Set.notMem_empty _)

/-- The top is done, now or before, and goes. -/
theorem pop (h : Suspended next opened done (a :: stack)) (hsub : done ⊆ done') (ha : a ∈ done') :
    Suspended next opened done' stack := by
  intro b hb hdone
  obtain ⟨above, below, hstack, hbelow, hcover⟩ := h b hb fun hb' => hdone (hsub hb')
  match above with
  | [] =>
    obtain ⟨rfl, -⟩ := List.cons.inj hstack
    exact absurd ha hdone
  | c :: above =>
    obtain ⟨rfl, rfl⟩ := List.cons.inj hstack
    refine ⟨above, below, rfl, fun c hc => hbelow c (mem_cons_of_mem _ hc), fun c hc => ?_⟩
    rcases hcover c hc with hc | hc
    · exact .inl (hsub hc)
    · rcases List.mem_cons.mp hc with rfl | hc
      · exact .inl ha
      · exact .inr hc

/-- The top is opened, and what it still needs is pushed. -/
theorem push (h : Suspended next opened done (a :: stack)) (ha : a ∉ opened)
    (hpending : ∀ b ∈ pending, Edge next a b) (hcover : ∀ b, Edge next a b → b ∈ done ∨ b ∈ pending) :
    Suspended next (insert a opened) done (pending ++ a :: stack) := by
  intro b hb hdone
  rcases hb with rfl | hb
  · exact ⟨pending, stack, rfl, fun c hc => TransGen.single (hpending c hc), hcover⟩
  · obtain ⟨above, below, hstack, hbelow, hcover'⟩ := h b hb hdone
    match above with
    | [] =>
      obtain ⟨rfl, -⟩ := List.cons.inj hstack
      exact absurd hb ha
    | c :: above =>
      obtain ⟨rfl, rfl⟩ := List.cons.inj hstack
      refine ⟨pending ++ a :: above, below, by simp, fun c hc => ?_, fun c hc => ?_⟩
      · rcases mem_append.mp hc with hc | hc
        · exact (hbelow a mem_cons_self).tail (hpending c hc)
        · exact hbelow c hc
      · rcases hcover' c hc with hc | hc
        · exact .inl hc
        · exact .inr (mem_append_right _ hc)

/-- **Back at an opened node, all it waited for is done.** -/
theorem ready (hac : Acyclic next) (h : Suspended next opened done (a :: stack)) (ha : a ∈ opened)
    (hdone : a ∉ done) : ∀ b, Edge next a b → b ∈ done := by
  intro b hb
  obtain ⟨above, below, hstack, hbelow, hcover⟩ := h a ha hdone
  match above with
  | [] =>
    rcases hcover b hb with hb | hb
    · exact hb
    · exact absurd hb not_mem_nil
  | c :: above =>
    -- the node would lie below itself
    obtain ⟨rfl, -⟩ := List.cons.inj hstack
    exact absurd (hbelow a mem_cons_self) (hac a)

end Suspended

/-! ## The steps there are -/

section Cost

variable [DecidableEq α] (next : α → Option (List α)) (U : Finset α)

/-- What is on the stack, and for each node still to be opened a step and the successors it pushes. -/
def stackCost (opened : Finset α) (stack : List α) : Nat :=
  stack.length + ∑ a ∈ U \ opened, (((next a).getD []).length + 1)

variable {next U} {opened : Finset α} {pending stack ps : List α} {a : α}

/-- Opening a node pays for what it pushes. -/
theorem stackCost_push (hU : a ∈ U) (ha : a ∉ opened) (hnext : next a = some ps) (hle : pending.length ≤ ps.length) :
    stackCost next U (insert a opened) (pending ++ a :: stack) < stackCost next U opened (a :: stack) := by
  have hsum : ∑ b ∈ U \ opened, (((next b).getD []).length + 1) =
      (ps.length + 1) + ∑ b ∈ U \ insert a opened, (((next b).getD []).length + 1) := by
    rw [sdiff_insert, ← add_sum_erase _ _ (mem_sdiff.mpr ⟨hU, ha⟩), hnext]
    rfl
  unfold stackCost
  rw [hsum, length_append, length_cons]
  omega

/-- A node that is popped costs no more. -/
theorem stackCost_pop {opened' : Finset α} (hsub : opened ⊆ opened') :
    stackCost next U opened' stack < stackCost next U opened (a :: stack) := by
  have hsum : ∑ b ∈ U \ opened', (((next b).getD []).length + 1) ≤
      ∑ b ∈ U \ opened, (((next b).getD []).length + 1) :=
    sum_le_sum_of_subset (sdiff_subset_sdiff le_rfl hsub)
  unfold stackCost
  rw [length_cons]
  omega

end Cost

end LexLang.Graph
