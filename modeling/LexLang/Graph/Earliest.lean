/-
# LexLang.Graph.Earliest — the earliest-ready order of a list under a blocking relation

`earliest blocks l` reorders `l` so that every item comes after the items that block it, always
taking the FIRST item of the list that nothing left in the list blocks; items caught in a cycle stay
at the end in list order. It is what a topological sort with a min-index heap meets
(`LexLang.Graph.Kahn`):

* a list that is already in order comes back unchanged (`earliest_of_ordered`);
* the result is a permutation (`earliest_perm`), in order when the relation is ranked
  (`earliest_ordered`);
* a list that splits into a lower part and an upper part hanging from one item is sorted part by
  part (`earliest_split`).
-/
import Mathlib.Data.Finset.Max

namespace LexLang.Graph

open List

variable {β : Type*} (blocks : β → β → Bool)

/-! ## Definition -/

/-- No item of `l` blocks `x`. -/
def unblocked (l : List β) (x : β) : Bool := l.all fun y => !blocks y x

variable {l : List β}

theorem unblocked_iff {blocks : β → β → Bool} {x : β} :
    unblocked blocks l x = true ↔ ∀ y ∈ l, blocks y x = false := by
  simp [unblocked]

/-- `l` already lists every item after the items of `l` that block it. -/
def Ordered (l : List β) : Prop :=
  l.Pairwise (fun x y => blocks y x = false) ∧ ∀ x ∈ l, blocks x x = false

variable [DecidableEq β]

/-- Take the first unblocked item, and go on with the rest. -/
def earliestLoop : Nat → List β → List β
  | 0, l => l
  | fuel + 1, l =>
    match l.find? (unblocked blocks l) with
    | none => l
    | some x => x :: earliestLoop fuel (l.erase x)

/-- **The earliest-ready order** of `l`. -/
def earliest (l : List β) : List β := earliestLoop blocks l.length l

variable {blocks}

/-- Fuel beyond the length of the list changes nothing. -/
theorem earliestLoop_fuel : ∀ (fuel : Nat) (l : List β), l.length ≤ fuel →
    earliestLoop blocks fuel l = earliest blocks l
  | 0, l, h => by
    obtain rfl := length_eq_zero_iff.mp (Nat.le_zero.mp h)
    rfl
  | fuel + 1, [], _ => rfl
  | fuel + 1, a :: l, h => by
    have hsome : ∀ x, (a :: l).find? (unblocked blocks (a :: l)) = some x →
        ((a :: l).erase x).length = l.length := fun x hx => by
      rw [length_erase_of_mem (mem_of_find?_eq_some hx)]
      rfl
    simp only [earliest, length_cons, earliestLoop]
    split
    · rfl
    · rename_i x hx
      rw [earliestLoop_fuel fuel _ (by rw [hsome x hx]; simpa using h), earliest, hsome x hx]

theorem earliest_nil : earliest blocks ([] : List β) = [] := rfl

/-- Nothing is ready: what is left is kept. -/
theorem earliest_of_none (h : l.find? (unblocked blocks l) = none) : earliest blocks l = l := by
  cases l with
  | nil => rfl
  | cons a l => simp only [earliest, length_cons, earliestLoop, h]

/-- The first unblocked item comes first. -/
theorem earliest_of_some {x : β} (h : l.find? (unblocked blocks l) = some x) :
    earliest blocks l = x :: earliest blocks (l.erase x) := by
  have hx : x ∈ l := mem_of_find?_eq_some h
  rw [← earliestLoop_fuel (l.length + 1) l (Nat.le_succ _), earliestLoop, h]
  simp only
  rw [earliestLoop_fuel l.length _ length_erase_le]

/-- Induction along the items taken. -/
theorem earliest_induction (blocks : β → β → Bool) {motive : List β → Prop}
    (stuck : ∀ l, l.find? (unblocked blocks l) = none → motive l)
    (take : ∀ l x, l.find? (unblocked blocks l) = some x → motive (l.erase x) → motive l) : ∀ l, motive l := by
  intro l
  induction hn : l.length generalizing l with
  | zero =>
    obtain rfl := length_eq_zero_iff.mp hn
    exact stuck [] rfl
  | succ n ih =>
    cases hx : l.find? (unblocked blocks l) with
    | none => exact stuck l hx
    | some x =>
      refine take l x hx (ih _ ?_)
      rw [length_erase_of_mem (mem_of_find?_eq_some hx), hn]
      rfl

/-! ## The order is a permutation, and leaves an ordered list alone -/

theorem earliest_perm (l : List β) : (earliest blocks l).Perm l := by
  induction l using earliest_induction blocks with
  | stuck l h => rw [earliest_of_none h]
  | take l x h ih =>
    rw [earliest_of_some h]
    exact (ih.cons x).trans (perm_cons_erase (mem_of_find?_eq_some h)).symm

theorem mem_earliest {x : β} : x ∈ earliest blocks l ↔ x ∈ l :=
  (earliest_perm l).mem_iff

/-- **An ordered list comes back unchanged.** -/
theorem earliest_of_ordered (h : Ordered blocks l) : earliest blocks l = l := by
  induction l with
  | nil => rfl
  | cons a l ih =>
    obtain ⟨hpair, hself⟩ := h
    rw [List.pairwise_cons] at hpair
    have hready : (a :: l).find? (unblocked blocks (a :: l)) = some a := by
      refine find?_cons_of_pos (unblocked_iff.mpr fun y hy => ?_)
      rcases List.mem_cons.mp hy with rfl | hy
      · exact hself y List.mem_cons_self
      · exact hpair.1 y hy
    rw [earliest_of_some hready, erase_cons_head, ih ⟨hpair.2, fun x hx => hself x (List.mem_cons_of_mem _ hx)⟩]

theorem exists_unblocked {rank : β → ℕ}
    (hrank : ∀ x ∈ l, ∀ y ∈ l, blocks y x = true → rank y < rank x) (hne : l ≠ []) :
    l.find? (unblocked blocks l) ≠ none := by
  intro hnone
  obtain ⟨x, hx, hmin⟩ := l.toFinset.exists_min_image rank (toFinset_nonempty_iff l |>.mpr hne)
  rw [mem_toFinset] at hx
  refine find?_eq_none.mp hnone x hx (unblocked_iff.mpr fun y hy => ?_)
  cases hyx : blocks y x with
  | false => rfl
  | true => exact absurd (hrank x hx y hy hyx) (not_lt.mpr (hmin y (mem_toFinset.mpr hy)))

/-- **Under a ranked relation nothing is left over**: every item comes after what blocks it. -/
theorem earliest_ordered {rank : β → ℕ} (hrank : ∀ x ∈ l, ∀ y ∈ l, blocks y x = true → rank y < rank x) :
    Ordered blocks (earliest blocks l) := by
  induction l using earliest_induction blocks with
  | stuck l h =>
    have hnil : l = [] := by
      by_contra hne
      exact exists_unblocked hrank hne h
    subst hnil
    exact ⟨List.Pairwise.nil, by simp [earliest_nil]⟩
  | take l x h ih =>
    have hx := unblocked_iff.mp (find?_some h)
    obtain ⟨hpair, hself⟩ := ih fun a ha b hb =>
      hrank a (List.mem_of_mem_erase ha) b (List.mem_of_mem_erase hb)
    rw [earliest_of_some h]
    refine ⟨List.pairwise_cons.mpr ⟨fun y hy => ?_, hpair⟩, fun y hy => ?_⟩
    · exact hx y (List.mem_of_mem_erase (mem_earliest.mp hy))
    · rcases List.mem_cons.mp hy with rfl | hy
      · exact hx y (mem_of_find?_eq_some h)
      · exact hself y hy

/-! ## Splitting at one item

`D` is the lower part: nothing outside blocks into it, every item of it but `s` blocks another one
of it, and every item outside is blocked by an item outside or by `s`. While any of `D` is left, `s`
is left, so nothing outside `D` is ready. -/

section Split

omit [DecidableEq β] in
theorem find?_congr_mem {p q : β → Bool} : ∀ {l : List β}, (∀ x ∈ l, p x = q x) →
    l.find? p = l.find? q
  | [], _ => rfl
  | a :: l, h => by
    rw [find?_cons, find?_cons, h a List.mem_cons_self,
      find?_congr_mem fun x hx => h x (List.mem_cons_of_mem _ hx)]

variable {rank : β → ℕ} {D : β → Prop} {s : β} {l : List β}

/-- While any of the lower part is left, `s` is. -/
theorem root_mem_of_lower (hrank : ∀ x ∈ l, ∀ y ∈ l, blocks y x = true → rank y < rank x)
    (hchild : ∀ d ∈ l, D d → d ≠ s → ∃ y ∈ l, D y ∧ blocks d y = true) {d : β} (hd : d ∈ l) (hDd : D d) : s ∈ l := by
  classical
  obtain ⟨m, hm, hmax⟩ := (l.toFinset.filter D).exists_max_image rank
    ⟨d, Finset.mem_filter.mpr ⟨mem_toFinset.mpr hd, hDd⟩⟩
  rw [Finset.mem_filter, mem_toFinset] at hm
  by_cases hms : m = s
  · exact hms ▸ hm.1
  · obtain ⟨y, hy, hDy, hby⟩ := hchild m hm.1 hm.2 hms
    exact absurd (hrank y hy m hm.1 hby)
      (not_lt.mpr (hmax y (Finset.mem_filter.mpr ⟨mem_toFinset.mpr hy, hDy⟩)))

variable [DecidablePred D]

omit [DecidableEq β] in
theorem find?_unblocked_lower (hroot : s ∈ l) (hdown : ∀ d ∈ l, D d → ∀ y ∈ l, blocks y d = true → D y)
    (hupper : ∀ r ∈ l, ¬ D r → (∃ y ∈ l, ¬ D y ∧ blocks y r = true) ∨ blocks s r = true) :
    l.find? (unblocked blocks l) = (l.filter fun x => decide (D x)).find?
        (unblocked blocks (l.filter fun x => decide (D x))) := by
  rw [find?_filter]
  refine find?_congr_mem fun x hx => ?_
  by_cases hDx : D x
  · rw [Bool.eq_iff_iff, decide_eq_true_iff, unblocked_iff, unblocked_iff]
    constructor
    · exact fun h => ⟨decide_eq_true hDx, fun y hy => h y (List.mem_filter.mp hy).1⟩
    · rintro ⟨_, h⟩ y hy
      cases hyx : blocks y x with
      | false => rfl
      | true =>
        have hDy : D y := hdown x hx hDx y hy hyx
        exact hyx ▸ h y (List.mem_filter.mpr ⟨hy, decide_eq_true hDy⟩)
  · have hblocked : unblocked blocks l x = false := by
      rw [Bool.eq_false_iff, Ne, unblocked_iff]
      intro h
      rcases hupper x hx hDx with ⟨y, hy, _, hyx⟩ | hsx
      · exact absurd (h y hy) (by simp [hyx])
      · exact absurd (h s hroot) (by simp [hsx])
    simp [hblocked, hDx]

/-- **The split.** The lower part is sorted first, as it would be alone; then the upper part. -/
theorem earliest_split (hrank : ∀ x ∈ l, ∀ y ∈ l, blocks y x = true → rank y < rank x)
    (hdown : ∀ d ∈ l, D d → ∀ y ∈ l, blocks y d = true → D y)
    (hchild : ∀ d ∈ l, D d → d ≠ s → ∃ y ∈ l, D y ∧ blocks d y = true)
    (hupper : ∀ r ∈ l, ¬ D r → (∃ y ∈ l, ¬ D y ∧ blocks y r = true) ∨ blocks s r = true) :
    earliest blocks l = earliest blocks (l.filter fun x => decide (D x)) ++
      earliest blocks (l.filter fun x => !decide (D x)) := by
  induction l using earliest_induction blocks with
  | stuck l h =>
    have hnil : l = [] := by
      by_contra hne
      exact exists_unblocked hrank hne h
    subst hnil
    rfl
  | take l x h ih =>
    by_cases hD : ∃ d ∈ l, D d
    · obtain ⟨d, hd, hDd⟩ := hD
      have hroot := root_mem_of_lower hrank hchild hd hDd
      have hlower := (find?_unblocked_lower hroot hdown hupper).symm.trans h
      have hxl : x ∈ l := mem_of_find?_eq_some h
      have hDx : D x := of_decide_eq_true (List.mem_filter.mp (mem_of_find?_eq_some hlower)).2
      have hready := unblocked_iff.mp (find?_some h)
      have hmem : ∀ {y}, y ∈ l.erase x → y ∈ l := List.mem_of_mem_erase
      have hrest := ih
        (fun a ha b hb => hrank a (hmem ha) b (hmem hb))
        (fun a ha hDa b hb => hdown a (hmem ha) hDa b (hmem hb))
        (fun a ha hDa has => by
          obtain ⟨y, hy, hDy, hay⟩ := hchild a (hmem ha) hDa has
          have hyx : y ≠ x := by
            rintro rfl
            exact absurd (hready a (hmem ha)) (by simp [hay])
          exact ⟨y, (mem_erase_of_ne hyx).mpr hy, hDy, hay⟩)
        (fun r hr hDr => by
          rcases hupper r (hmem hr) hDr with ⟨y, hy, hDy, hyr⟩ | hsr
          · have hyx : y ≠ x := fun he => hDy (he ▸ hDx)
            exact .inl ⟨y, (mem_erase_of_ne hyx).mpr hy, hDy, hyr⟩
          · exact .inr hsr)
      have hupperRest : (l.filter fun y => !decide (D y)).erase x = l.filter fun y => !decide (D y) :=
        erase_of_not_mem (by simp [hDx])
      rw [earliest_of_some h, hrest, earliest_of_some hlower, erase_filter,
        ← @erase_filter _ _ x _ (fun y => !decide (D y)), hupperRest, cons_append]
    · have hall : ∀ y ∈ l, ¬ D y := fun y hy hDy => hD ⟨y, hy, hDy⟩
      rw [filter_eq_nil_iff.mpr fun y hy => by simpa using hall y hy,
        List.filter_eq_self.mpr fun y hy => by simpa using hall y hy]
      rfl

end Split

/-! ## Renaming the items -/

theorem earliest_congr {blocks' : β → β → Bool}
    (h : ∀ y ∈ l, ∀ x ∈ l, blocks y x = blocks' y x) : earliest blocks l = earliest blocks' l := by
  have hfind : ∀ l : List β, (∀ y ∈ l, ∀ x ∈ l, blocks y x = blocks' y x) →
      l.find? (unblocked blocks l) = l.find? (unblocked blocks' l) := by
    intro l h
    refine find?_congr_mem fun x hx => ?_
    rw [Bool.eq_iff_iff, unblocked_iff, unblocked_iff]
    exact forall₂_congr fun y hy => by rw [h y hy x hx]
  induction l using earliest_induction blocks with
  | stuck l hnone => rw [earliest_of_none hnone, earliest_of_none (hfind l h ▸ hnone)]
  | take l x hsome ih =>
    have hsome' : l.find? (unblocked blocks' l) = some x := hfind l h ▸ hsome
    rw [earliest_of_some hsome, earliest_of_some hsome',
      ih fun y hy z hz => h y (List.mem_of_mem_erase hy) z (List.mem_of_mem_erase hz)]

section Rename

variable {γ : Type*} [DecidableEq γ] {f : γ → β}

theorem map_erase_of_injOn {x : γ} : ∀ {l : List γ}, x ∈ l →
    (∀ a ∈ l, ∀ b ∈ l, f a = f b → a = b) → (l.map f).erase (f x) = (l.erase x).map f
  | a :: l, hx, hinj => by
    by_cases hax : a = x
    · subst hax
      rw [List.map_cons, erase_cons_head, erase_cons_head]
    · have hfax : f a ≠ f x := fun h => hax (hinj a List.mem_cons_self x hx h)
      have hx' : x ∈ l := (List.mem_cons.mp hx).resolve_left fun h => hax h.symm
      rw [List.map_cons, erase_cons_tail (by simpa using hfax),
        erase_cons_tail (by simpa using hax), List.map_cons,
        map_erase_of_injOn hx' fun b hb c hc =>
          hinj b (List.mem_cons_of_mem _ hb) c (List.mem_cons_of_mem _ hc)]

/-- **Renaming.** Sorting renamed items is renaming the sorted ones. -/
theorem earliest_map {l : List γ} (hinj : ∀ a ∈ l, ∀ b ∈ l, f a = f b → a = b) :
    earliest blocks (l.map f) = (earliest (fun y x => blocks (f y) (f x)) l).map f := by
  have hfind : ∀ l : List γ, (l.map f).find? (unblocked blocks (l.map f)) =
      (l.find? (unblocked (fun y x => blocks (f y) (f x)) l)).map f := fun l => by
    rw [find?_map]
    refine congrArg (Option.map f) (find?_congr_mem fun x _ => ?_)
    simp [unblocked, Function.comp_def]
  induction l using earliest_induction (fun y x => blocks (f y) (f x)) with
  | stuck l h => rw [earliest_of_none h, earliest_of_none (by rw [hfind, h]; rfl)]
  | take l x h ih =>
    have hx : x ∈ l := mem_of_find?_eq_some h
    rw [earliest_of_some h, earliest_of_some (by rw [hfind, h]; rfl : _ = some (f x)),
      map_erase_of_injOn hx hinj, List.map_cons,
      ih fun a ha b hb => hinj a (List.mem_of_mem_erase ha) b (List.mem_of_mem_erase hb)]

end Rename

end LexLang.Graph
