/-
# LexLang.Graph.Walk — breadth-first walks over a partial successor function

A store of nodes is a function `next : α → Option (List α)`: the successors of a node it holds, or
`none` for a node it does not hold. A breadth-first walk pops a first-in-first-out frontier, skips
what it has seen, and visits what the store holds. This module is about the ORDER in which such a
walk visits nodes, not only the set: which set it is (`mem_walk_iff`), that the loop ends
(`walk_bfs`), and what becomes of the order when the walk is restricted to one side of a cut that
the graph crosses at a single node (`Walk.filter_upper`, `Walk.filter_lower`).
-/
import Mathlib.Algebra.Order.BigOperators.Group.Finset

namespace LexLang.Graph

open Finset List Option Relation

variable {α : Type*}

/-! ## Edges, reachability, acyclicity -/

section Reachability

variable (next : α → Option (List α))

/-- `b` is a listed successor of the held node `a`. -/
def Edge (a b : α) : Prop := ∃ ps, next a = some ps ∧ b ∈ ps

/-- Reachability along edges, every node reaching itself. -/
abbrev Reach : α → α → Prop := ReflTransGen (Edge next)

/-- No node reaches itself along one edge or more. -/
def Acyclic : Prop := ∀ a, ¬ TransGen (Edge next) a a

variable {next : α → Option (List α)}

theorem edge_iff_of_some {a b : α} {ps : List α} (h : next a = some ps) : Edge next a b ↔ b ∈ ps := by
  constructor
  · rintro ⟨qs, hqs, hb⟩
    obtain rfl : ps = qs := some.inj (h.symm.trans hqs)
    exact hb
  · exact fun hb => ⟨ps, h, hb⟩

theorem not_edge_of_none {a b : α} (h : next a = none) : ¬ Edge next a b := by
  rintro ⟨ps, hps, _⟩
  rw [h] at hps
  cases hps

/-- **A finite acyclic graph is ranked.** Count the held nodes below a node: an edge leads to a
strictly smaller count, since the node itself is no longer counted. -/
theorem Acyclic.exists_rank_le (U : Finset α) (hU : ∀ a, next a ≠ none → a ∈ U) (hac : Acyclic next) :
    ∃ rank : α → ℕ, (∀ a b, Edge next a b → rank b < rank a) ∧ ∀ a, rank a ≤ U.card := by
  classical
  refine ⟨fun a => (U.filter fun u => Reach next a u).card, fun a b hab => ?_,
    fun a => card_filter_le _ _⟩
  refine card_lt_card ((ssubset_iff_of_subset ?_).mpr ⟨a, ?_, ?_⟩)
  · intro u hu
    rw [Finset.mem_filter] at hu ⊢
    exact ⟨hu.1, Relation.ReflTransGen.head hab hu.2⟩
  · rw [Finset.mem_filter]
    refine ⟨hU a ?_, Relation.ReflTransGen.refl⟩
    obtain ⟨ps, hps, _⟩ := hab
    simp [hps]
  · rw [Finset.mem_filter]
    rintro ⟨_, hba⟩
    exact hac a (TransGen.head' hab hba)

theorem Acyclic.exists_rank (U : Finset α) (hU : ∀ a, next a ≠ none → a ∈ U) (hac : Acyclic next) :
    ∃ rank : α → ℕ, ∀ a b, Edge next a b → rank b < rank a := by
  obtain ⟨rank, hrank, _⟩ := hac.exists_rank_le U hU
  exact ⟨rank, hrank⟩

/-- Where nothing below `a` has a second successor, what `a` reaches lies on one line. -/
theorem reach_comparable {a b c : α} (hline : ∀ {x y z}, Reach next a x → Edge next x y → Edge next x z → y = z)
    (hb : Reach next a b) (hc : Reach next a c) : Reach next b c ∨ Reach next c b := by
  induction hb with
  | refl => exact .inl hc
  | tail hx hxy ih =>
    rcases ih with h | h
    · rcases h.cases_head with rfl | ⟨z, hxz, hz⟩
      · exact .inr (.single hxy)
      · exact .inl (hline hx hxy hxz ▸ hz)
    · exact .inr (h.tail hxy)

end Reachability

variable [DecidableEq α]

/-! ## The walk as a relation -/

/-- **Walk `next seen frontier out`** — from the visited set `seen` and the pending `frontier`, the
breadth-first walk emits exactly `out`. One constructor per way a popped node is handled. -/
inductive Walk (next : α → Option (List α)) : Finset α → List α → List α → Prop
  | done (seen : Finset α) : Walk next seen [] []
  | skip {seen : Finset α} {a : α} {frontier out : List α} (hseen : a ∈ seen)
      (rest : Walk next seen frontier out) : Walk next seen (a :: frontier) out
  | absent {seen : Finset α} {a : α} {frontier out : List α} (hseen : a ∉ seen)
      (hnext : next a = none) (rest : Walk next (insert a seen) frontier out) :
      Walk next seen (a :: frontier) out
  | visit {seen : Finset α} {a : α} {ps frontier out : List α} (hseen : a ∉ seen)
      (hnext : next a = some ps)
      (rest : Walk next (insert a seen)
        (frontier ++ ps.filter fun p => decide (p ∉ insert a seen)) out) :
      Walk next seen (a :: frontier) (a :: out)

section Walk

variable {next : α → Option (List α)} {seen : Finset α} {frontier out : List α}

variable (h : Walk next seen frontier out)
include h

theorem Walk.unique {out' : List α} (h' : Walk next seen frontier out') : out = out' := by
  induction h generalizing out' with
  | done seen => cases h'; rfl
  | skip hseen _ ih =>
    cases h' with
    | skip _ rest => exact ih rest
    | absent hn _ _ => exact absurd hseen hn
    | visit hn _ _ => exact absurd hseen hn
  | absent hseen hnext _ ih =>
    cases h' with
    | skip hs _ => exact absurd hs hseen
    | absent _ _ rest => exact ih rest
    | visit _ hv _ => rw [hnext] at hv; cases hv
  | visit hseen hnext _ ih =>
    cases h' with
    | skip hs _ => exact absurd hs hseen
    | absent _ hv _ => rw [hnext] at hv; cases hv
    | visit _ hv rest =>
      obtain rfl := some.inj (hnext.symm.trans hv)
      rw [ih rest]

theorem Walk.not_mem_seen : ∀ a ∈ out, a ∉ seen := by
  induction h with
  | done seen => simp
  | skip _ _ ih => exact ih
  | absent _ _ _ ih => exact fun a ha hs => ih a ha (Finset.mem_insert_of_mem hs)
  | visit hseen _ _ ih =>
    intro b hb hs
    rcases List.mem_cons.mp hb with rfl | hb
    · exact hseen hs
    · exact ih b hb (Finset.mem_insert_of_mem hs)

theorem Walk.nodup : out.Nodup := by
  induction h with
  | done seen => exact nodup_nil
  | skip _ _ ih => exact ih
  | absent _ _ _ ih => exact ih
  | visit _ _ rest ih =>
    exact nodup_cons.mpr
      ⟨fun ha => rest.not_mem_seen _ ha (Finset.mem_insert_self _ _), ih⟩

theorem Walk.held : ∀ a ∈ out, next a ≠ none := by
  induction h with
  | done seen => simp
  | skip _ _ ih => exact ih
  | absent _ _ _ ih => exact ih
  | visit _ hnext _ ih =>
    intro b hb
    rcases List.mem_cons.mp hb with rfl | hb
    · simp [hnext]
    · exact ih b hb

theorem Walk.sound : ∀ b ∈ out, ∃ a ∈ frontier, Reach next a b := by
  induction h with
  | done seen => simp
  | skip _ _ ih | absent _ _ _ ih =>
    intro b hb
    obtain ⟨a, ha, hab⟩ := ih b hb
    exact ⟨a, List.mem_cons_of_mem _ ha, hab⟩
  | @visit seen a ps frontier out hseen hnext _ ih =>
    intro b hb
    rcases List.mem_cons.mp hb with rfl | hb
    · exact ⟨b, List.mem_cons_self, Relation.ReflTransGen.refl⟩
    · obtain ⟨c, hc, hcb⟩ := ih b hb
      rcases mem_append.mp hc with hc | hc
      · exact ⟨c, List.mem_cons_of_mem _ hc, hcb⟩
      · exact ⟨a, List.mem_cons_self,
          Relation.ReflTransGen.head ⟨ps, hnext, (List.mem_filter.mp hc).1⟩ hcb⟩

theorem Walk.pushed : ∀ {before b after}, out = before ++ b :: after →
    b ∈ frontier ∨ ∃ a ∈ before, Edge next a b := by
  induction h with
  | done => simp
  | skip _ _ ih | absent _ _ _ ih => exact fun h => (ih h).imp_left (mem_cons_of_mem _)
  | @visit _ a ps _ _ _ hnext _ ih =>
    intro before b after h
    rcases cons_eq_append_iff.mp h with ⟨-, hout⟩ | ⟨before, rfl, hout⟩
    · rw [(cons.inj hout).1]
      exact .inl mem_cons_self
    · rcases ih hout with hmem | ⟨p, hp, hedge⟩
      · rcases mem_append.mp hmem with hmem | hmem
        · exact .inl (mem_cons_of_mem _ hmem)
        · exact .inr ⟨a, mem_cons_self, ps, hnext, mem_of_mem_filter hmem⟩
      · exact .inr ⟨p, mem_cons_of_mem _ hp, hedge⟩

/-- Whatever the walk has seen, or has pending, it follows to every held node below. -/
theorem Walk.complete (hclosed : ∀ a ∈ seen, ∀ b, Edge next a b → b ∈ seen ∨ b ∈ frontier) :
    ∀ a, a ∈ seen ∨ a ∈ frontier → ∀ b, Reach next a b → next b ≠ none → b ∈ seen ∨ b ∈ out := by
  induction h with
  | done seen =>
    intro a ha b hab hb
    clear hb
    refine .inl ?_
    induction hab with
    | refl => simpa using ha
    | tail _ hbc ih => simpa using hclosed _ ih _ hbc
  | skip hseen _ ih =>
    refine fun a ha => ih (fun a ha b hab => ?_) a ?_
    · rcases hclosed a ha b hab with hb | hb
      · exact .inl hb
      · rcases List.mem_cons.mp hb with rfl | hb
        · exact .inl hseen
        · exact .inr hb
    · rcases ha with ha | ha
      · exact .inl ha
      · rcases List.mem_cons.mp ha with rfl | ha
        · exact .inl hseen
        · exact .inr ha
  | @absent seen c frontier out hseen hnext _ ih =>
    intro a ha b hab hb
    have hstep := ih (fun x hx y hxy => by
      rcases mem_insert.mp hx with rfl | hx
      · exact absurd hxy (not_edge_of_none hnext)
      · rcases hclosed x hx y hxy with hy | hy
        · exact .inl (Finset.mem_insert_of_mem hy)
        · rcases List.mem_cons.mp hy with rfl | hy
          · exact .inl (Finset.mem_insert_self _ _)
          · exact .inr hy) a (by
      rcases ha with ha | ha
      · exact .inl (Finset.mem_insert_of_mem ha)
      · rcases List.mem_cons.mp ha with rfl | ha
        · exact .inl (Finset.mem_insert_self _ _)
        · exact .inr ha) b hab hb
    rcases hstep with hs | ho
    · rcases mem_insert.mp hs with rfl | hs
      · exact absurd hnext hb
      · exact .inl hs
    · exact .inr ho
  | @visit seen c ps frontier out hseen hnext _ ih =>
    intro a ha b hab hb
    have hpending : ∀ y, y ∈ insert c seen ∨ y ∈ ps ∨ y ∈ frontier →
        y ∈ insert c seen ∨
          y ∈ frontier ++ ps.filter fun p => decide (p ∉ insert c seen) := by
      intro y hy
      by_cases hs : y ∈ insert c seen
      · exact .inl hs
      · refine .inr (mem_append.mpr ?_)
        rcases hy with hy | hy | hy
        · exact absurd hy hs
        · exact .inr (List.mem_filter.mpr ⟨hy, decide_eq_true hs⟩)
        · exact .inl hy
    have hstep := ih (fun x hx y hxy => by
      refine hpending y ?_
      rcases mem_insert.mp hx with rfl | hx
      · exact .inr (.inl ((edge_iff_of_some hnext).mp hxy))
      · rcases hclosed x hx y hxy with hy | hy
        · exact .inl (Finset.mem_insert_of_mem hy)
        · rcases List.mem_cons.mp hy with rfl | hy
          · exact .inl (Finset.mem_insert_self _ _)
          · exact .inr (.inr hy)) a (by
      refine hpending a ?_
      rcases ha with ha | ha
      · exact .inl (Finset.mem_insert_of_mem ha)
      · rcases List.mem_cons.mp ha with rfl | ha
        · exact .inl (Finset.mem_insert_self _ _)
        · exact .inr (.inr ha)) b hab hb
    rcases hstep with hs | ho
    · rcases mem_insert.mp hs with rfl | hs
      · exact .inr List.mem_cons_self
      · exact .inl hs
    · exact .inr (List.mem_cons_of_mem _ ho)

/-- A walk only asks about the nodes it can reach. -/
theorem Walk.congr {next' : α → Option (List α)}
    (heq : ∀ a ∈ frontier, ∀ b, Reach next a b → next b = next' b) : Walk next' seen frontier out := by
  induction h with
  | done seen => exact .done seen
  | skip hseen _ ih => exact .skip hseen (ih fun a ha => heq a (List.mem_cons_of_mem _ ha))
  | @absent _ a _ _ hseen hnext _ ih =>
    have ha : next a = next' a := heq a List.mem_cons_self a Relation.ReflTransGen.refl
    exact .absent hseen (ha ▸ hnext) (ih fun a ha => heq a (List.mem_cons_of_mem _ ha))
  | @visit _ a ps _ _ hseen hnext _ ih =>
    have ha : next a = next' a := heq a List.mem_cons_self a Relation.ReflTransGen.refl
    refine .visit hseen (ha ▸ hnext) (ih fun b hb c hbc => ?_)
    rcases mem_append.mp hb with hb | hb
    · exact heq b (List.mem_cons_of_mem _ hb) c hbc
    · exact heq a List.mem_cons_self c
        (Relation.ReflTransGen.head ⟨ps, hnext, (List.mem_filter.mp hb).1⟩ hbc)

omit h

/-- **What a walk from one node emits: the held nodes it reaches.** -/
theorem mem_walk_iff {a : α} (h : Walk next ∅ [a] out) (b : α) : b ∈ out ↔ Reach next a b ∧ next b ≠ none := by
  constructor
  · intro hb
    obtain ⟨c, hc, hcb⟩ := h.sound b hb
    obtain rfl := List.mem_singleton.mp hc
    exact ⟨hcb, h.held b hb⟩
  · rintro ⟨hab, hb⟩
    rcases h.complete (by simp) a (.inr List.mem_cons_self) b hab hb with hs | ho
    · simp at hs
    · exact ho

end Walk

/-! ## The walk as a loop with fuel -/

section Loop

variable (next : α → Option (List α))

/-- The walk as a loop, one unit of fuel per popped node. -/
def bfs : Nat → Finset α → List α → List α
  | 0, _, _ => []
  | _ + 1, _, [] => []
  | fuel + 1, seen, a :: frontier =>
    if a ∈ seen then bfs fuel seen frontier
    else match next a with
      | none => bfs fuel (insert a seen) frontier
      | some ps =>
        a :: bfs fuel (insert a seen)
          (frontier ++ ps.filter fun p => decide (p ∉ insert a seen))

/-- Fuel that cannot run out: the pending nodes, and the successor lists still to be pushed. -/
def walkCost (U seen : Finset α) (frontier : List α) : Nat :=
  frontier.length + ∑ a ∈ U \ seen, ((next a).getD []).length

/-- Seeing a held node pays for the successors it pushes. -/
theorem walkCost_visit {U seen : Finset α} {a : α} {ps frontier : List α}
    (hU : a ∈ U) (hseen : a ∉ seen) (hnext : next a = some ps) : walkCost next U (insert a seen)
        (frontier ++ ps.filter fun p => decide (p ∉ insert a seen)) < walkCost next U seen (a :: frontier) := by
  have hsplit : U \ seen = insert a (U \ insert a seen) := by
    ext b
    simp only [mem_sdiff, mem_insert, not_or]
    constructor
    · rintro ⟨hb, hs⟩
      by_cases hba : b = a
      · exact .inl hba
      · exact .inr ⟨hb, hba, hs⟩
    · rintro (rfl | ⟨hb, _, hs⟩)
      · exact ⟨hU, hseen⟩
      · exact ⟨hb, hs⟩
  have hsum : ∑ b ∈ U \ seen, ((next b).getD []).length =
      ps.length + ∑ b ∈ U \ insert a seen, ((next b).getD []).length := by
    rw [hsplit, sum_insert (by simp), hnext, getD_some]
  have hfilter := length_filter_le (fun p => decide (p ∉ insert a seen)) ps
  simp only [walkCost, hsum, length_append, length_cons]
  omega

/-- **With enough fuel the loop is the walk.** -/
theorem walk_bfs {U : Finset α} (hU : ∀ a, next a ≠ none → a ∈ U) :
    ∀ (fuel : Nat) (seen : Finset α) (frontier : List α),
      walkCost next U seen frontier ≤ fuel → Walk next seen frontier (bfs next fuel seen frontier)
  | 0, seen, frontier, hfuel => by
    have hnil : frontier = [] := length_eq_zero_iff.mp (by simp only [walkCost] at hfuel; omega)
    subst hnil
    exact .done seen
  | _ + 1, seen, [], _ => .done seen
  | fuel + 1, seen, a :: frontier, hfuel => by
    rw [bfs]
    split
    · rename_i hseen
      refine .skip hseen (walk_bfs hU fuel seen frontier ?_)
      simp only [walkCost, length_cons] at hfuel ⊢
      omega
    · rename_i hseen
      split
      · rename_i hnext
        refine .absent hseen hnext (walk_bfs hU fuel _ frontier ?_)
        have hsub : ∑ b ∈ U \ insert a seen, ((next b).getD []).length ≤
            ∑ b ∈ U \ seen, ((next b).getD []).length :=
          sum_le_sum_of_subset
            (sdiff_subset_sdiff le_rfl (Finset.subset_insert a seen))
        simp only [walkCost, length_cons] at hfuel ⊢
        omega
      · rename_i ps hnext
        refine .visit hseen hnext (walk_bfs hU fuel _ _ ?_)
        have hlt : walkCost next U (insert a seen) _ < walkCost next U seen (a :: frontier) :=
          walkCost_visit next (hU a (by simp [hnext])) hseen hnext
        omega

end Loop

/-! ## Restricting a walk across a cut

A walk that enters a region only downwards keeps its order when the rest is forgotten. Two
readings: the region ABOVE a cut (nothing below leads back up) and the region BELOW it (everything
comes in through one node `s`). -/

section Cut

variable {next : α → Option (List α)} {seen : Finset α} {frontier out : List α}

/-- The graph inside a region: other nodes are neither held nor pointed to. -/
def restrict (next : α → Option (List α)) (P : α → Prop) [DecidablePred P] (a : α) :
    Option (List α) :=
  if P a then (next a).map fun ps => ps.filter fun p => decide (P p) else none

variable (P : α → Prop) [DecidablePred P]

/-- A walk seen from inside a region `P`, in a graph that has the region's nodes and the edges between them. `F` is
what counts of the frontier: the nodes of the region, but for some already seen, and no outer node leads to them. -/
theorem Walk.filter_region {next' : α → Option (List α)} {F : α → Prop} [DecidablePred F]
    (hnone : ∀ a, P a → next a = none → next' a = none)
    (hsome : ∀ a ps, P a → next a = some ps → next' a = some (ps.filter fun p => decide (P p)))
    (hFP : ∀ a, F a → P a) (h : Walk next seen frontier out) (hPF : ∀ a, P a → ¬ F a → a ∈ seen)
    (houter : ∀ a ∈ out, ¬ P a → ∀ b, Edge next a b → ¬ F b) :
    Walk next' (seen.filter P) (frontier.filter fun a => decide (F a)) (out.filter fun a => decide (P a)) := by
  have hkept : ∀ {seen : Finset α} {a : α}, (∀ a, P a → ¬ F a → a ∈ seen) → a ∉ seen → (F a ↔ P a) :=
    fun hPF hseen => ⟨hFP _, fun hP => by_contra fun hF => hseen (hPF _ hP hF)⟩
  induction h with
  | done seen => exact .done _
  | @skip seen a frontier out hseen _ ih =>
    by_cases ha : F a
    · rw [List.filter_cons_of_pos (by simpa using ha)]
      exact .skip (Finset.mem_filter.mpr ⟨hseen, hFP a ha⟩) (ih hPF houter)
    · rw [List.filter_cons_of_neg (by simpa using ha)]
      exact ih hPF houter
  | @absent seen a frontier out hseen hnext _ ih =>
    specialize ih (fun b hb hF => Finset.mem_insert_of_mem (hPF b hb hF)) houter
    by_cases ha : P a
    · rw [filter_insert, if_pos ha] at ih
      rw [List.filter_cons_of_pos (by simpa using (hkept hPF hseen).mpr ha)]
      exact .absent (fun hs => hseen (Finset.mem_filter.mp hs).1) (hnone a ha hnext) ih
    · rw [filter_insert, if_neg ha] at ih
      rwa [List.filter_cons_of_neg (by simpa using fun hF => ha (hFP a hF))]
  | @visit seen a ps frontier out hseen hnext _ ih =>
    have hPF' : ∀ b, P b → ¬ F b → b ∈ insert a seen := fun b hb hF => Finset.mem_insert_of_mem (hPF b hb hF)
    specialize ih hPF' fun b hb => houter b (List.mem_cons_of_mem _ hb)
    by_cases ha : P a
    · rw [filter_insert, if_pos ha] at ih
      rw [List.filter_cons_of_pos (by simpa using (hkept hPF hseen).mpr ha),
        List.filter_cons_of_pos (by simpa using ha)]
      refine .visit (fun hs => hseen (Finset.mem_filter.mp hs).1) (hsome a ps ha hnext) ?_
      have hpush : (frontier ++ ps.filter fun p => decide (p ∉ insert a seen)).filter (fun p => decide (F p)) =
          (frontier.filter fun p => decide (F p)) ++ (ps.filter fun p => decide (P p)).filter
            fun p => decide (p ∉ insert a (seen.filter P)) := by
        rw [filter_append, List.filter_filter, List.filter_filter]
        congr 1
        refine List.filter_congr fun p _ => ?_
        rw [← Bool.decide_and, ← Bool.decide_and, decide_eq_decide]
        constructor
        · rintro ⟨hF, hp⟩
          refine ⟨fun hs => hp ?_, hFP p hF⟩
          exact Finset.insert_subset_insert a (Finset.filter_subset P seen) hs
        · rintro ⟨hp, hPp⟩
          have hfresh : p ∉ insert a seen := by
            rw [Finset.mem_insert, not_or] at hp ⊢
            exact ⟨hp.1, fun hs => hp.2 (Finset.mem_filter.mpr ⟨hs, hPp⟩)⟩
          exact ⟨(hkept hPF' hfresh).mpr hPp, hfresh⟩
      rwa [hpush] at ih
    · have hdrop : (ps.filter fun p => decide (p ∉ insert a seen)).filter (fun p => decide (F p)) = [] := by
        refine filter_eq_nil_iff.mpr fun p hp => ?_
        simpa using houter a List.mem_cons_self ha p ⟨ps, hnext, (List.mem_filter.mp hp).1⟩
      rw [filter_insert, if_neg ha, filter_append, hdrop, append_nil] at ih
      rwa [List.filter_cons_of_neg (by simpa using fun hF => ha (hFP a hF)), List.filter_cons_of_neg (by simpa using ha)]

/-- **The upper side of a cut.** If no node outside `P` leads into `P`, the walk filtered to `P` is
the walk of the graph inside `P`. -/
theorem Walk.filter_upper (hup : ∀ a b, ¬ P a → Edge next a b → ¬ P b) (h : Walk next seen frontier out) :
    Walk (restrict next P) (seen.filter P) (frontier.filter fun a => decide (P a))
      (out.filter fun a => decide (P a)) :=
  h.filter_region P (fun a ha hnext => by simp [restrict, hnext])
    (fun a ps ha hnext => by rw [restrict, if_pos ha, hnext, map_some]) (fun _ => id)
    (fun _ hP hF => absurd hP hF) fun a _ ha b => hup a b ha

variable {P}

/-- Below the cut, once its entry node `s` has been seen: pending copies of `s` no longer matter. -/
theorem Walk.filter_lower_seen {s : α} (hdown : ∀ a b, P a → Edge next a b → P b)
    (h : Walk next seen frontier out) (hs : s ∈ seen) (hentry : ∀ a ∈ out, ¬ P a → ∀ b, Edge next a b → P b → b = s) :
    Walk next (seen.filter P) (frontier.filter fun a => decide (P a ∧ a ≠ s)) (out.filter fun a => decide (P a)) := by
  refine h.filter_region P (fun _ _ => id) (fun a ps ha hnext => ?_) (fun _ h => h.1) (fun a hP hF => ?_)
    fun a ha hout b hedge hF => hF.2 (hentry a ha hout b hedge hF.1)
  · rw [hnext, List.filter_eq_self.mpr fun p hp => decide_eq_true (hdown a p ha ⟨ps, hnext, hp⟩)]
  · rwa [show a = s by by_contra hne; exact hF ⟨hP, hne⟩]

/-- **The lower side of a cut.** If everything enters `P` through the one node `s`, then once the
walk gets to `s` it goes through `P` in the order of the walk from `s` alone. -/
theorem Walk.filter_lower {s : α} (hdown : ∀ a b, P a → Edge next a b → P b)
    (hPs : P s) (h : Walk next seen frontier out)
    (hentry : ∀ a ∈ out, ¬ P a → ∀ b, Edge next a b → P b → b = s) (hseen : ∀ a ∈ seen, ¬ P a)
    (hfrontier : ∀ a ∈ frontier, P a → a = s) : (out.filter fun a => decide (P a)) = [] ∨
      Walk next ∅ [s] (out.filter fun a => decide (P a)) := by
  have hempty : ∀ {S : Finset α}, (∀ a ∈ S, ¬ P a) → S.filter P = ∅ :=
    fun hS => filter_eq_empty_iff.mpr hS
  induction h with
  | done seen => exact .inl rfl
  | @skip seen a frontier out ha _ ih =>
    exact ih hentry hseen fun b hb => hfrontier b (List.mem_cons_of_mem _ hb)
  | @absent seen a frontier out ha hnext rest ih =>
    by_cases hPa : P a
    · obtain rfl := hfrontier a List.mem_cons_self hPa
      have hrest := rest.filter_lower_seen hdown (Finset.mem_insert_self _ _) hentry
      have hnil : (frontier.filter fun b => decide (P b ∧ b ≠ a)) = [] := by
        refine filter_eq_nil_iff.mpr fun b hb => ?_
        have := hfrontier b (List.mem_cons_of_mem _ hb)
        simpa using this
      rw [filter_insert, if_pos hPs, hempty hseen, hnil] at hrest
      exact .inr (.absent (by simp) hnext hrest)
    · refine ih hentry (fun b hb => ?_) fun b hb => hfrontier b (List.mem_cons_of_mem _ hb)
      rcases mem_insert.mp hb with rfl | hb
      · exact hPa
      · exact hseen b hb
  | @visit seen a ps frontier out ha hnext rest ih =>
    by_cases hPa : P a
    · obtain rfl := hfrontier a List.mem_cons_self hPa
      have hrest := rest.filter_lower_seen hdown (Finset.mem_insert_self _ _)
        fun b hb => hentry b (List.mem_cons_of_mem _ hb)
      have hpush : (frontier ++ ps.filter fun p => decide (p ∉ insert a seen)).filter
            (fun p => decide (P p ∧ p ≠ a)) =
          [] ++ ps.filter fun p => decide (p ∉ insert a (∅ : Finset α)) := by
        rw [filter_append, List.filter_filter]
        congr 1
        · refine filter_eq_nil_iff.mpr fun b hb => ?_
          have := hfrontier b (List.mem_cons_of_mem _ hb)
          simpa using this
        · refine List.filter_congr fun p hp => ?_
          have hPp : P p := hdown a p hPa ⟨ps, hnext, hp⟩
          have hps : p ∉ seen := fun h => hseen p h hPp
          by_cases hpa : p = a
          · simp [hpa]
          · simp [hPp, hpa, hps]
      rw [filter_insert, if_pos hPs, hempty hseen, hpush] at hrest
      rw [List.filter_cons_of_pos (by simpa using hPs)]
      exact .inr (.visit (by simp) hnext hrest)
    · rw [List.filter_cons_of_neg (by simpa using hPa)]
      refine ih (fun b hb => hentry b (List.mem_cons_of_mem _ hb)) (fun b hb => ?_) fun b hb hPb => ?_
      · rcases mem_insert.mp hb with rfl | hb
        · exact hPa
        · exact hseen b hb
      · rcases mem_append.mp hb with hb | hb
        · exact hfrontier b (List.mem_cons_of_mem _ hb) hPb
        · exact hentry a List.mem_cons_self hPa b ⟨ps, hnext, (List.mem_filter.mp hb).1⟩ hPb

end Cut

end LexLang.Graph
