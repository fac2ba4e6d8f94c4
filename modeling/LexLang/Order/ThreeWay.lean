/-
# LexLang.Order.ThreeWay — three-way merges

A three-way merge takes a base and two sides to what both sides' changes come to, unless they conflict:
a relation between base, ours, theirs and result. `Settled` is what it owes at one result: the sides
can be swapped, merging the result with either side again changes nothing, and the base comes out only
when nothing went in. A merge with the quick answers (`Quick`: the sides agree, or one of them is the
base) owes this only where all three differ (`Quick.lawful`), and there it can be asked of the slow
merge that is then made.
-/
import Mathlib.Data.Option.Basic

namespace LexLang.Order

open Option

variable {α : Type*}

/-- **What a merge owes where it has come to a result.** -/
structure Settled (R : α → α → α → α → Prop) (b o t e : α) : Prop where
  swap : R b t o e
  left : R b e t e
  right : R b o e e
  base : e = b → o = b ∧ t = b

/-- A merge keeps its promises at one base, two sides and every result. -/
def Lawful (R : α → α → α → α → Prop) (b o t : α) : Prop := ∀ e, R b o t e → Settled R b o t e

/-- What a merge function returns. -/
def Returns (m : α → α → α → Option α) (b o t e : α) : Prop := m b o t = some e

/-- **The quick answers**: the sides agree, or one of them is the base. -/
structure Quick (m : α → α → α → Option α) : Prop where
  same : ∀ b o, m b o o = some o
  ours : ∀ b t, m b b t = some t
  theirs : ∀ b o, m b o b = some o

variable {m : α → α → α → Option α} {R : α → α → α → α → Prop} {b o t : α}

/-- **With the quick answers a merge is lawful where the slow one is** that it makes when all three
differ. -/
theorem Quick.lawful (hq : Quick m)
    (hslow : ∀ o t e, o ≠ t → b ≠ o → b ≠ t → (m b o t = some e ↔ R b o t e)) (h : Lawful R b o t) :
    Lawful (Returns m) b o t := by
  intro e he
  by_cases hsides : o = t
  · subst hsides
    obtain rfl := some.inj ((hq.same b o).symm.trans he)
    exact ⟨hq.same b o, hq.same b o, hq.same b o, fun h => ⟨h, h⟩⟩
  · by_cases hours : b = o
    · subst hours
      obtain rfl := some.inj ((hq.ours b t).symm.trans he)
      exact ⟨hq.theirs b t, hq.same b t, hq.ours b t, fun h => ⟨rfl, h⟩⟩
    · by_cases htheirs : b = t
      · subst htheirs
        obtain rfl := some.inj ((hq.theirs b o).symm.trans he)
        exact ⟨hq.ours b o, hq.theirs b o, hq.same b o, fun h => ⟨h, rfl⟩⟩
      · have hs := h e ((hslow o t e hsides hours htheirs).mp he)
        -- the result is not the base, so a quick answer to it can only be the result
        have hbase : b ≠ e := fun heq => hours (hs.base heq.symm).1.symm
        refine ⟨(hslow t o e (Ne.symm hsides) htheirs hours).mpr hs.swap, ?_, ?_, hs.base⟩
        · by_cases het : e = t
          · exact het ▸ hq.same b e
          · exact (hslow e t e het hbase htheirs).mpr hs.left
        · by_cases hoe : o = e
          · exact hoe ▸ hq.same b o
          · exact (hslow o e e hoe hours hbase).mpr hs.right

/-- A merge that is lawful for all sides does not tell them apart. -/
theorem Lawful.comm (h : ∀ o t, Lawful (Returns m) b o t) (o t : α) : m b o t = m b t o := by
  apply Option.ext
  intro e
  exact ⟨fun he => (h o t e he).swap, fun he => (h t o e he).swap⟩

/-! ## Merges of pairs and of lists -/

section Parts

variable {β : Type*} {m' : β → β → β → Option β}

/-- Pairs, part by part. -/
def both (m : α → α → α → Option α) (m' : β → β → β → Option β) (b o t : α × β) :
    Option (α × β) :=
  (m b.1 o.1 t.1).bind fun x => (m' b.2 o.2 t.2).map fun y => (x, y)

theorem both_eq_some_iff {b o t e : α × β} :
    both m m' b o t = some e ↔ m b.1 o.1 t.1 = some e.1 ∧ m' b.2 o.2 t.2 = some e.2 := by
  obtain ⟨x, y⟩ := e
  simp [both, bind_eq_some_iff]

/-- **Pairs are merged as lawfully as their parts.** -/
theorem Lawful.both {b o t : α × β} (h : Lawful (Returns m) b.1 o.1 t.1)
    (h' : Lawful (Returns m') b.2 o.2 t.2) : Lawful (Returns (both m m')) b o t := by
  intro e he
  obtain ⟨h₁, h₂⟩ := both_eq_some_iff.mp he
  have hs := h e.1 h₁
  have hs' := h' e.2 h₂
  refine ⟨both_eq_some_iff.mpr ⟨hs.swap, hs'.swap⟩, both_eq_some_iff.mpr ⟨hs.left, hs'.left⟩,
    both_eq_some_iff.mpr ⟨hs.right, hs'.right⟩, fun heq => ?_⟩
  obtain ⟨ho, ht⟩ := hs.base (congrArg Prod.fst heq)
  obtain ⟨ho', ht'⟩ := hs'.base (congrArg Prod.snd heq)
  exact ⟨Prod.ext ho ho', Prod.ext ht ht'⟩

/-- Lists of one length, item by item. -/
def items (m : α → α → α → Option α) : List α → List α → List α → Option (List α)
  | [], [], [] => some []
  | b :: bs, o :: os, t :: ts => do
    let e ← m b o t
    let es ← items m bs os ts
    pure (e :: es)
  | _, _, _ => none

theorem items_cons_eq_some_iff {b : α} {bs os ts es : List α} :
    items m (b :: bs) os ts = some es ↔ ∃ o os' t ts' e es', os = o :: os' ∧ ts = t :: ts' ∧
      es = e :: es' ∧ m b o t = some e ∧ items m bs os' ts' = some es' := by
  cases os with
  | nil => simp [items]
  | cons o os =>
    cases ts with
    | nil => simp [items]
    | cons t ts =>
      simp only [items, bind_eq_bind, bind_eq_some_iff, pure_def,
        some.injEq, List.cons.injEq]
      constructor
      · rintro ⟨e, he, es', hes, rfl⟩
        exact ⟨o, os, t, ts, e, es', ⟨rfl, rfl⟩, ⟨rfl, rfl⟩, rfl, he, hes⟩
      · rintro ⟨_, _, _, _, e, es', ⟨rfl, rfl⟩, ⟨rfl, rfl⟩, rfl, he, hes⟩
        exact ⟨e, he, es', hes, rfl⟩

/-- **Lists are merged as lawfully as their items.** -/
theorem lawful_items : ∀ {bs : List α}, (∀ b ∈ bs, ∀ o t, Lawful (Returns m) b o t) →
    ∀ os ts, Lawful (Returns (items m)) bs os ts
  | [], _, os, ts, es, hes => by
    cases os <;> cases ts <;> simp [Returns, items] at hes
    subst hes
    exact ⟨rfl, rfl, rfl, fun _ => ⟨rfl, rfl⟩⟩
  | b :: bs, h, os, ts, es, hes => by
    obtain ⟨o, os, t, ts, e, es, rfl, rfl, rfl, he, hes⟩ := items_cons_eq_some_iff.mp hes
    have hs := h b List.mem_cons_self o t e he
    have hs' := lawful_items (fun b hb => h b (List.mem_cons_of_mem _ hb)) os ts es hes
    refine ⟨?_, ?_, ?_, fun heq => ?_⟩
    · exact items_cons_eq_some_iff.mpr ⟨t, ts, o, os, e, es, rfl, rfl, rfl, hs.swap, hs'.swap⟩
    · exact items_cons_eq_some_iff.mpr ⟨e, es, t, ts, e, es, rfl, rfl, rfl, hs.left, hs'.left⟩
    · exact items_cons_eq_some_iff.mpr ⟨o, os, e, es, e, es, rfl, rfl, rfl, hs.right, hs'.right⟩
    · obtain ⟨hhead, htail⟩ := List.cons.inj heq
      obtain ⟨rfl, rfl⟩ := hs.base hhead
      obtain ⟨rfl, rfl⟩ := hs'.base htail
      exact ⟨rfl, rfl⟩

end Parts

end LexLang.Order
