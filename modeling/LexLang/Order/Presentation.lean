/-
# LexLang.Order.Presentation — what a value is, apart from how it is presented

A value may be presented in several ways: a list of entries in any order, and each entry in any of its
own ways. A relation says which presentations are of one value, a function what a presentation comes to,
and a presentation is `Invariant` if all those of its value come to the same.

A stable sort forgets the order of the entries, except among equal keys (`sortBy_eq_iff`). So a list
that is sorted is invariant if its entries are, and those with equal keys come to the same
(`invariant_sorted`); a list that is not sorted is only if all its entries do (`invariant_unsorted`).
-/
import Mathlib.Data.List.Sort
import Mathlib.Data.Multiset.AddSub

namespace LexLang.Order

open List

/-! ## Sorting by key -/

section Sorting

variable {α β κ : Type*} [LinearOrder κ] (key : α → κ)

/-- **Sort by key.** Entries with equal keys keep their order. -/
def sortBy (l : List α) : List α := l.insertionSort fun a b => key a ≤ key b

theorem perm_sortBy (l : List α) : (sortBy key l).Perm l := perm_insertionSort _ l

theorem pairwise_sortBy (l : List α) : (sortBy key l).Pairwise fun a b => key a ≤ key b := by
  have : Std.Total fun a b : α => key a ≤ key b := ⟨fun a b => le_total (key a) (key b)⟩
  have : IsTrans α fun a b => key a ≤ key b := ⟨fun _ _ _ => le_trans⟩
  exact pairwise_insertionSort _ l

theorem sortBy_of_pairwise {l : List α} (h : l.Pairwise fun a b => key a ≤ key b) : sortBy key l = l :=
  h.insertionSort_eq

/-- A list that was sorted stays as it is. -/
@[simp] theorem sortBy_sortBy (l : List α) : sortBy key (sortBy key l) = sortBy key l :=
  sortBy_of_pairwise key (pairwise_sortBy key l)

theorem sortBy_map (f : β → α) (l : List β) : sortBy key (l.map f) = (sortBy (fun b => key (f b)) l).map f :=
  (map_insertionSort _ _ f l fun _ _ _ _ => Iff.rfl).symm

/-- What was sorted stays in order under the same keys. -/
theorem sortBy_map_sortBy {key' : β → κ} {f : β → α} (hf : ∀ b, key (f b) = key' b) (l : List β) :
    sortBy key ((sortBy key' l).map f) = (sortBy key' l).map f := by
  rw [sortBy_map, funext hf, sortBy_sortBy]

theorem filter_orderedInsert (k : κ) (a : α) (l : List α) :
    (l.orderedInsert (fun a b => key a ≤ key b) a).filter (fun b => key b = k) =
      (a :: l).filter fun b => key b = k := by
  induction l with
  | nil => rfl
  | cons b l ih =>
    rw [orderedInsert_cons]
    split
    · rfl
    · rename_i hlt
      by_cases ha : key a = k
      · -- `b` is before `a`, so its key is another one
        have hb : ¬ key b = k := by
          rintro rfl
          exact hlt ha.le
        simp only [filter_cons, ha, hb, decide_true, decide_false, ih]
        rfl
      · simp only [filter_cons, ha, decide_false, ih]
        rfl

/-- **The sort is stable**: the entries of one key stay in their order. -/
theorem filter_sortBy (k : κ) (l : List α) :
    (sortBy key l).filter (fun b => key b = k) = l.filter fun b => key b = k := by
  induction l with
  | nil => rfl
  | cons a l ih =>
    show (orderedInsert _ a (sortBy key l)).filter _ = _
    rw [filter_orderedInsert, filter_cons, filter_cons, ih]

theorem mem_iff_of_filter_eq {l l' : List α}
    (hfilter : ∀ k, l.filter (fun b => key b = k) = l'.filter fun b => key b = k) (x : α) : x ∈ l ↔ x ∈ l' := by
  have hx : ∀ m : List α, x ∈ m ↔ x ∈ m.filter fun b => key b = key x := by
    intro m
    simp
  rw [hx l, hx l', hfilter]

/-- In order, a list is told by what it has of each key. -/
theorem eq_of_filter_eq {l l' : List α} (hl : l.Pairwise fun a b => key a ≤ key b)
    (hl' : l'.Pairwise fun a b => key a ≤ key b)
    (hfilter : ∀ k, l.filter (fun b => key b = k) = l'.filter fun b => key b = k) : l = l' := by
  have hmem := mem_iff_of_filter_eq key hfilter
  induction l generalizing l' with
  | nil =>
    refine (eq_nil_iff_forall_not_mem.mpr fun x hx => ?_).symm
    exact not_mem_nil ((hmem x).mpr hx)
  | cons a l ih =>
    match l', hl', hfilter, hmem with
    | [], _, _, hmem => exact absurd ((hmem a).mp mem_cons_self) not_mem_nil
    | b :: l', hl', hfilter, hmem =>
      have hle : ∀ {x y : α} {m : List α}, (x :: m).Pairwise (fun a b => key a ≤ key b) →
          y ∈ x :: m → key x ≤ key y := by
        intro x y m hm hy
        rcases mem_cons.mp hy with rfl | hy
        · exact le_refl _
        · exact rel_of_pairwise_cons hm hy
      have hab : key a = key b :=
        le_antisymm (hle hl ((hmem b).mpr mem_cons_self)) (hle hl' ((hmem a).mp mem_cons_self))
      have hfirst := hfilter (key b)
      rw [filter_cons_of_pos (by simp [hab]), filter_cons_of_pos (by simp)] at hfirst
      obtain rfl : a = b := (List.cons.inj hfirst).1
      have htail : ∀ k, l.filter (fun b => key b = k) = l'.filter fun b => key b = k := by
        intro k
        have hk := hfilter k
        rw [filter_cons, filter_cons] at hk
        split at hk
        · exact (List.cons.inj hk).2
        · exact hk
      rw [ih hl.of_cons hl'.of_cons htail (mem_iff_of_filter_eq key htail)]

/-- **What sorting keeps of a list** is what it has of each key, in order. -/
theorem sortBy_eq_iff {l l' : List α} : sortBy key l = sortBy key l' ↔
      ∀ k, l.filter (fun b => key b = k) = l'.filter fun b => key b = k := by
  constructor
  · intro h k
    rw [← filter_sortBy, h, filter_sortBy]
  · intro h
    refine eq_of_filter_eq key (pairwise_sortBy key l) (pairwise_sortBy key l') fun k => ?_
    rw [filter_sortBy, filter_sortBy, h]

end Sorting

/-! ## Presentations -/

section Presentations

variable {α β κ : Type*} [LinearOrder κ] {R : α → α → Prop} {o : α → β}

/-- **What a presentation comes to does not depend on how its value is presented.** -/
def Invariant (R : α → α → Prop) (o : α → β) (a : α) : Prop := ∀ a', R a a' → o a' = o a

/-- A list with its entries presented otherwise, and in another order. -/
inductive Reordered (R : α → α → Prop) : List α → List α → Prop
  | intro {m l l' : List α} (entries : Forall₂ R l m) (order : m.Perm l') : Reordered R l l'

/-- Entries of one name. -/
inductive Named (R : α → α → Prop) : String × α → String × α → Prop
  | intro (name : String) {a a' : α} (entry : R a a') : Named R (name, a) (name, a')

/-- Pairs, both parts presented otherwise. -/
inductive Both (R : α → α → Prop) (S : β → β → Prop) : α × β → α × β → Prop
  | intro {a a' : α} {b b' : β} (left : R a a') (right : S b b') : Both R S (a, b) (a', b')

variable {l : List α}

theorem forall₂_refl (hrefl : ∀ a ∈ l, R a a) : Forall₂ R l l :=
  forall₂_same.mpr hrefl

theorem Reordered.refl (hrefl : ∀ a ∈ l, R a a) : Reordered R l l :=
  ⟨forall₂_refl hrefl, Perm.refl l⟩

theorem map_eq_of_forall₂ {l m : List α} (hl : ∀ a ∈ l, Invariant R o a) (hm : Forall₂ R l m) :
    m.map o = l.map o := by
  induction hm with
  | nil => rfl
  | cons hab _ ih =>
    rw [map_cons, map_cons, hl _ mem_cons_self _ hab, ih fun a ha => hl a (mem_cons_of_mem _ ha)]

/-- One entry presented otherwise. -/
theorem forall₂_at {s t : List α} {a a' : α} (hrefl : ∀ b ∈ s ++ a :: t, R b b) (ha : R a a') :
    Forall₂ R (s ++ a :: t) (s ++ a' :: t) := by
  refine rel_append (forall₂_refl fun b hb => hrefl b (mem_append_left _ hb)) (.cons ha ?_)
  exact forall₂_refl fun b hb => hrefl b (mem_append_right _ (mem_cons_of_mem _ hb))

theorem invariant_forall₂ (hrefl : ∀ a ∈ l, R a a) :
    Invariant (Forall₂ R) (List.map o) l ↔ ∀ a ∈ l, Invariant R o a := by
  constructor
  · intro h a ha a' haa'
    obtain ⟨s, t, rfl⟩ := append_of_mem ha
    have := h _ (forall₂_at hrefl haa')
    simpa using this
  · exact fun h m hm => map_eq_of_forall₂ h hm

theorem eq_of_perm_at {s t : List β} {b b' : β} (h : (s ++ b :: t).Perm (s ++ b' :: t)) : b = b' := by
  have hcons := (perm_append_left_iff s).mp h
  exact (Multiset.cons_inj_left (t : Multiset β)).mp (Multiset.coe_eq_coe.mpr hcons)

/-- Where the order does not matter, an entry comes to one thing. -/
theorem invariant_entry {f : List β → List β} (hf : ∀ l, (f l).Perm l)
    (hrefl : ∀ a ∈ l, R a a) (h : Invariant (Reordered R) (fun l => f (l.map o)) l) : ∀ a ∈ l, Invariant R o a := by
  intro a ha a' haa'
  obtain ⟨s, t, rfl⟩ := append_of_mem ha
  have heq := h _ ⟨forall₂_at hrefl haa', Perm.refl _⟩
  have hperm : ((s ++ a' :: t).map o).Perm ((s ++ a :: t).map o) :=
    (hf _).symm.trans ((Perm.of_eq heq).trans (hf _))
  rw [map_append, map_append, map_cons, map_cons] at hperm
  exact eq_of_perm_at hperm

/-- Any entry may be presented first. -/
theorem reordered_first (hrefl : ∀ a ∈ l, R a a) {a : α} (ha : a ∈ l) :
    ∃ rest, Reordered R l (a :: rest) := by
  obtain ⟨s, t, rfl⟩ := append_of_mem ha
  exact ⟨s ++ t, forall₂_refl hrefl, perm_middle⟩

theorem eq_of_perm_of_same {l l' : List β} (h : l.Perm l') (hsame : ∀ b ∈ l, ∀ b' ∈ l, b = b') : l = l' := by
  have hall : ∀ m : List β, m.Pairwise fun _ _ => True := fun m => pairwise_of_forall fun _ _ => trivial
  exact Perm.eq_of_pairwise (fun b b' hb hb' _ _ => hsame b hb b' (h.mem_iff.mpr hb')) (hall l) (hall l') h

/-- **A sorted list is invariant** exactly if its entries are, and those with equal keys come to the
same. -/
theorem invariant_sorted (key : β → κ) (hrefl : ∀ a ∈ l, R a a) :
    Invariant (Reordered R) (fun l => sortBy key (l.map o)) l ↔
      (∀ a ∈ l, Invariant R o a) ∧ ∀ a ∈ l, ∀ b ∈ l, key (o a) = key (o b) → o a = o b := by
  constructor
  · refine fun h => ⟨invariant_entry (perm_sortBy key) hrefl h, fun a ha b hb hkey => ?_⟩
    obtain ⟨rest, hrest⟩ := reordered_first hrefl ha
    obtain ⟨rest', hrest'⟩ := reordered_first hrefl hb
    -- with either one first, it is the first of its key
    have heq := (sortBy_eq_iff key).mp ((h _ hrest).trans (h _ hrest').symm) (key (o a))
    rw [map_cons, map_cons, filter_cons_of_pos (by simp),
      filter_cons_of_pos (by simp [hkey])] at heq
    exact (List.cons.inj heq).1
  · rintro ⟨hentries, hsame⟩ l' ⟨hm, hperm⟩
    show sortBy key (l'.map o) = sortBy key (l.map o)
    rw [← map_eq_of_forall₂ hentries hm, sortBy_eq_iff]
    intro k
    refine (eq_of_perm_of_same ((hperm.map o).filter _) ?_).symm
    intro x hx y hy
    obtain ⟨hxm, hxk⟩ := mem_filter.mp hx
    obtain ⟨hym, hyk⟩ := mem_filter.mp hy
    rw [map_eq_of_forall₂ hentries hm] at hxm hym
    obtain ⟨a, ha, rfl⟩ := mem_map.mp hxm
    obtain ⟨b, hb, rfl⟩ := mem_map.mp hym
    have hk : key (o a) = key (o b) := (of_decide_eq_true hxk).trans (of_decide_eq_true hyk).symm
    exact hsame a ha b hb hk

/-- **A list left in its order is invariant** exactly if its entries are, and all come to the same. -/
theorem invariant_unsorted (hrefl : ∀ a ∈ l, R a a) : Invariant (Reordered R) (List.map o) l ↔
      (∀ a ∈ l, Invariant R o a) ∧ ∀ a ∈ l, ∀ b ∈ l, o a = o b := by
  constructor
  · refine fun h => ⟨invariant_entry (f := id) (fun _ => Perm.refl _) hrefl h, fun a ha b hb => ?_⟩
    obtain ⟨rest, hrest⟩ := reordered_first hrefl ha
    obtain ⟨rest', hrest'⟩ := reordered_first hrefl hb
    exact (List.cons.inj ((h _ hrest).trans (h _ hrest').symm)).1
  · rintro ⟨hentries, hsame⟩ l' ⟨hm, hperm⟩
    rw [← map_eq_of_forall₂ hentries hm]
    refine (eq_of_perm_of_same (hperm.map o) ?_).symm
    rw [map_eq_of_forall₂ hentries hm]
    intro x hx y hy
    obtain ⟨a, ha, rfl⟩ := mem_map.mp hx
    obtain ⟨b, hb, rfl⟩ := mem_map.mp hy
    exact hsame a ha b hb

/-! ### Parts -/

section Parts

variable {α β γ δ ε ζ : Type*} {R : α → α → Prop} {S : β → β → Prop} {T : ε → ε → Prop}
  {o : α → γ} {p : β → δ} {out : ε → ζ}

/-- **A node is invariant if its parts are**: it is presented by presenting them, and tells what they
come to. -/
theorem invariant_node (K : α → ε) {a : α} (hnode : ∀ {a'}, R a a' → T (K a) (K a'))
    (hparts : ∀ y, T (K a) y → ∃ a', R a a' ∧ K a' = y)
    (hout : ∀ a', R a a' → (out (K a') = out (K a) ↔ o a' = o a)) : Invariant T out (K a) ↔ Invariant R o a := by
  constructor
  · intro h a' ha'
    exact (hout a' ha').mp (h _ (hnode ha'))
  · intro h y hy
    obtain ⟨a', ha', rfl⟩ := hparts y hy
    exact (hout a' ha').mpr (h a' ha')

theorem invariant_node₂ (K : α → β → ε) {a : α} {b : β} (ha : R a a) (hb : S b b)
    (hnode : ∀ {a' b'}, R a a' → S b b' → T (K a b) (K a' b'))
    (hparts : ∀ y, T (K a b) y → ∃ a' b', R a a' ∧ S b b' ∧ K a' b' = y)
    (hout : ∀ a' b', R a a' → S b b' → (out (K a' b') = out (K a b) ↔ o a' = o a ∧ p b' = p b)) :
    Invariant T out (K a b) ↔ Invariant R o a ∧ Invariant S p b := by
  constructor
  · intro h
    refine ⟨fun a' ha' => ?_, fun b' hb' => ?_⟩
    · exact ((hout a' b ha' hb).mp (h _ (hnode ha' hb))).1
    · exact ((hout a b' ha hb').mp (h _ (hnode ha hb'))).2
  · rintro ⟨hleft, hright⟩ y hy
    obtain ⟨a', b', ha', hb', rfl⟩ := hparts y hy
    exact (hout a' b' ha' hb').mpr ⟨hleft a' ha', hright b' hb'⟩

theorem invariant_both {a : α} {b : β} (ha : R a a) (hb : S b b) :
    Invariant (Both R S) (Prod.map o p) (a, b) ↔ Invariant R o a ∧ Invariant S p b :=
  invariant_node₂ Prod.mk ha hb .intro (fun | _, .intro ha' hb' => ⟨_, _, ha', hb', rfl⟩)
    fun _ _ _ _ => Prod.mk.injEq .. ▸ Iff.rfl

/-- An entry is invariant if what stands under its name is. -/
theorem invariant_named {f : String × α → ζ} {name : String} {a : α}
    (hf : ∀ a', R a a' → (f (name, a') = f (name, a) ↔ o a' = o a)) :
    Invariant (Named R) f (name, a) ↔ Invariant R o a :=
  invariant_node (fun a => (name, a)) (.intro name) (fun | _, .intro _ ha' => ⟨_, ha', rfl⟩) hf

theorem invariant_option {a : Option α} : Invariant (Option.Rel R) (Option.map o) a ↔ ∀ b ∈ a, Invariant R o b := by
  constructor
  · rintro h b rfl b' hb'
    exact Option.some.inj (h (some b') (.some hb'))
  · intro h a' ha'
    match a, a', ha' with
    | none, none, _ => rfl
    | some b, some b', .some hb' => exact congrArg some (h b rfl b' hb')

end Parts

end Presentations

end LexLang.Order
