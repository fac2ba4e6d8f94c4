/-
# LexLang.Graph.Preorder — the nodes of a tree, with the labels on the way to them

A tree is given by the labelled children of its nodes, and is well-founded. Its nodes are listed in
preorder, each with the labels that lead to it.
-/
import Mathlib.Data.List.Nodup

namespace LexLang.Graph

open List

section Preorder

variable {N L : Type} (children : N → List (L × N))

/-- The labels lead from a node to another. -/
def Leads : N → List L → N → Prop
  | n, [], m => n = m
  | n, l :: ls, m => ∃ c, (l, c) ∈ children n ∧ Leads c ls m

/-- A node is a child of another. -/
def Child (c n : N) : Prop := ∃ l, (l, c) ∈ children n

/-- **The nodes below a node**: each child, then what is below it. -/
def preorder (finite : WellFounded (Child children)) (n : N) : List (List L × N) :=
  (children n).attach.flatMap fun e =>
    ([e.1.1], e.1.2) :: (preorder finite e.1.2).map fun below => (e.1.1 :: below.1, below.2)
termination_by finite.wrap n
decreasing_by exact ⟨e.1.1, e.2⟩

variable {children}

/-- What is listed is what some labels lead to. -/
theorem mem_preorder_iff {finite : WellFounded (Child children)} {ls : List L} {n m : N} :
    (ls, m) ∈ preorder children finite n ↔ ls ≠ [] ∧ Leads children n ls m := by
  rw [preorder]
  simp only [mem_flatMap, mem_attach, true_and, Subtype.exists, mem_cons, mem_map,
    Prod.mk.injEq, Prod.exists]
  cases ls with
  | nil => simp
  | cons l ls =>
    simp only [ne_eq, cons_ne_nil, not_false_eq_true, true_and, Leads, List.cons.injEq]
    constructor
    · rintro ⟨l', c, hc, ⟨⟨rfl, rfl⟩, rfl⟩ | ⟨ls', m', hm, ⟨rfl, rfl⟩, rfl⟩⟩
      · exact ⟨m, hc, rfl⟩
      · exact ⟨c, hc, (mem_preorder_iff.mp hm).2⟩
    · rintro ⟨c, hc, hm⟩
      refine ⟨l, c, hc, ?_⟩
      cases ls with
      | nil => exact .inl ⟨⟨rfl, rfl⟩, hm.symm⟩
      | cons l' ls' =>
        exact .inr ⟨_, _, mem_preorder_iff.mpr ⟨cons_ne_nil l' ls', hm⟩, ⟨rfl, rfl⟩, rfl⟩
termination_by finite.wrap n
decreasing_by all_goals exact ⟨_, hc⟩

/-- **No two nodes are reached by the same labels**, when no two children have the same. -/
theorem nodup_preorder (finite : WellFounded (Child children)) {K : Type} {f : L → K}
    (hf : ∀ n, ((children n).map fun e => f e.1).Nodup) (n : N) :
    ((preorder children finite n).map fun e => e.1.map f).Nodup := by
  rw [preorder, map_flatMap, nodup_flatMap]
  constructor
  · rintro ⟨e, he⟩ -
    have ih := nodup_preorder finite hf e.2
    simp only [map_cons, map_map, nodup_cons, mem_map, map_nil]
    constructor
    · rintro ⟨below, hbelow, heq⟩
      have hne := (mem_preorder_iff.mp hbelow).1
      simp_all
    · have hcons := ih.map (cons_injective (a := f e.1))
      simpa [map_map, Function.comp_def] using hcons
  · have hpair := pairwise_map.mp (hf n)
    rw [← attach_map_subtype_val (children n)] at hpair
    refine (pairwise_map.mp hpair).imp fun {d e} hne => ?_
    show List.Disjoint _ _
    intro ks hd he
    have hhead : ∀ x : { x // x ∈ children n }, ks ∈ (([x.1.1], x.1.2) ::
        (preorder children finite x.1.2).map fun below => (x.1.1 :: below.1, below.2)).map
          (fun e => e.1.map f) → ks.head? = some (f x.1.1) := by
      intro x hx
      simp only [map_cons, map_map, mem_cons, mem_map] at hx
      rcases hx with rfl | ⟨below, -, rfl⟩
      · rfl
      · rfl
    exact hne (Option.some.inj ((hhead d hd).symm.trans (hhead e he)))
termination_by finite.wrap n
decreasing_by exact ⟨_, he⟩

end Preorder

end LexLang.Graph
