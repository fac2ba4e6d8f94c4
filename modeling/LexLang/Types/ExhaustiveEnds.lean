/-
# LexLang.Types.ExhaustiveEnds — the search ends

A column is only taken apart because some pattern looks into it, so each time either the patterns get smaller or a
column goes away. That holds of every matrix, whatever recursive types its columns have.
-/
import LexLang.Types.ExhaustiveSearch
import Mathlib.Algebra.Order.BigOperators.Group.List
import Mathlib.Algebra.Order.Group.Nat

namespace LexLang.Types

open LexLang.Ast (Pattern CLit)
open Bool List Option

/-! ## The weight of a matrix -/

mutual

/-- A constructor weighs more than a tuple of its patterns. -/
def weight : Pattern → Nat
  | .pWild => 0
  | .pVar _ => 0
  | .pLiteral _ => 1
  | .pConstructor _ args => 2 + weightAll args
  | .pRecord fields => 1 + weightFields fields
  | .pTuple items => 1 + weightAll items

def weightAll : List Pattern → Nat
  | [] => 0
  | p :: ps => weight p + weightAll ps

def weightFields : List (String × Pattern) → Nat
  | [] => 0
  | (_, p) :: fields => weight p + weightFields fields

end

attribute [local simp] weight weightAll weightFields

/-- Each row counts by itself, too. -/
def weightRows (rows : List (List Pattern)) : Nat := (rows.map fun row => 1 + weightAll row).sum

theorem looks_of_headCtor {p : Pattern} {name : String} (named : headCtor p = some name) : isWild p = false := by
  cases p <;> first | rfl | cases named

theorem weightAll_append (ps qs : List Pattern) : weightAll (ps ++ qs) = weightAll ps + weightAll qs := by
  induction ps with
  | nil => simp [weightAll]
  | cons p ps ih => simp [weightAll, ih, Nat.add_assoc]

theorem weightAll_wilds {α : Type} (l : List α) : weightAll (l.map fun _ => .pWild) = 0 := by
  induction l with
  | nil => rfl
  | cons a l ih => simpa [weightAll, weight] using ih

/-- A pattern gets lighter when it is taken apart. -/
def Lighter (special : Pattern → Option (List Pattern)) : Prop :=
  ∀ p sub, special p = some sub → weightAll sub ≤ weight p ∧ (isWild p = false → weightAll sub < weight p)

theorem lighter_specializeCtor (name : String) (hasPayload : Bool) : Lighter (specializeCtor · name hasPayload) := by
  intro p sub found
  cases p with
  | pWild | pVar other => cases hasPayload <;> cases found <;> simp [weightAll, weight, isWild]
  | pConstructor other args =>
    simp only [specializeCtor, isWild, false_eq_true, if_false, ite_none_right_eq_some,
      some.injEq] at found
    obtain ⟨rfl, rfl⟩ := found
    have payload : weight (ctorPayloadPattern args) ≤ 1 + weightAll args := by
      rcases args with _ | ⟨p, _ | ⟨q, rest⟩⟩ <;> simp [ctorPayloadPattern, weight, weightAll]
    cases hasPayload <;> simp [weightAll, weight]
    omega
  | pLiteral value => cases value <;> simp_all [specializeCtor, isWild, weightAll, weight]
  | pTuple items => cases items <;> simp_all [specializeCtor, isWild, weightAll, weight]
  | pRecord fields => simp [specializeCtor, isWild] at found

theorem sum_ite_le {names : List String} (distinct : names.Nodup) (name : String) (k : Nat) :
    (names.map fun other => if other = name then k else 0).sum ≤ k := by
  induction names with
  | nil => simp
  | cons other names ih =>
    obtain ⟨notMem, distinct⟩ := nodup_cons.mp distinct
    by_cases eq : other = name
    · have zero : (names.map fun other => if other = name then k else 0) = names.map fun _ => 0 :=
        map_congr_left fun m mem => if_neg fun same => notMem (by rw [eq, ← same]; exact mem)
      simp [eq, zero]
    · simpa [eq] using ih distinct

/-- The first patterns of the fields weigh no more than all. -/
theorem weightAll_fieldPatterns {fields : List (String × Ty)} (distinct : (fields.map Prod.fst).Nodup)
    (pfs : List (String × Pattern)) : weightAll (fields.map (Checker.fieldPattern pfs)) ≤ weightFields pfs := by
  have asSum : ∀ ps : List Pattern, weightAll ps = (ps.map weight).sum := by
    intro ps
    induction ps with
    | nil => rfl
    | cons p ps ih => simp [weightAll, ih]
  induction pfs with
  | nil =>
    have wilds : fields.map (Checker.fieldPattern []) = fields.map fun _ => .pWild := rfl
    rw [wilds, weightAll_wilds]
    omega
  | cons pf pfs ih =>
    obtain ⟨name, p⟩ := pf
    have each : ∀ f ∈ fields, weight (Checker.fieldPattern ((name, p) :: pfs) f) ≤
        (if f.1 = name then weight p else 0) + weight (Checker.fieldPattern pfs f) := by
      intro f _
      by_cases eq : f.1 = name
      · simp [Checker.fieldPattern, eq]
      · simp [Checker.fieldPattern, lookup_cons, beq_false_of_ne eq, eq]
    have total := sum_le_sum each
    rw [sum_map_add] at total
    have here := sum_ite_le distinct name (weight p)
    rw [List.map_map] at here
    simp only [asSum, List.map_map, weightFields, Function.comp_def] at ih here total ⊢
    omega

theorem lighter_specializeProduct {fields : List (String × Ty)} {kind : ProductKind}
    (distinct : (fields.map Prod.fst).Nodup ∨ kind = .tuple) : Lighter (specializeProduct · fields kind) := by
  intro p sub found
  cases p with
  | pWild | pVar other =>
    simp only [specializeProduct, isWild, if_true, some.injEq] at found
    subst found
    exact ⟨by rw [weightAll_wilds]; omega, by simp [isWild]⟩
  | pTuple items =>
    cases kind with
    | tuple =>
      simp only [specializeProduct, isWild, false_eq_true, if_false, ite_none_right_eq_some,
        some.injEq] at found
      obtain ⟨-, rfl⟩ := found
      simp only [weight]
      omega
    | record => simp [specializeProduct, isWild] at found
  | pRecord pfs =>
    cases kind with
    | tuple => simp [specializeProduct, isWild] at found
    | record =>
      have inner := weightAll_fieldPatterns (by simpa using distinct) pfs
      simp only [specializeProduct, isWild, false_eq_true, if_false, some.injEq] at found
      subst found
      have same : (fields.map fun f => (pfs.lookup f.1).getD .pWild) = fields.map (Checker.fieldPattern pfs) := rfl
      simp only [weight, same]
      omega
  | _ => cases kind <;> simp [specializeProduct, isWild] at found

theorem weightRows_defaultRows (rows : List (List Pattern)) : weightRows (defaultRows rows) ≤ weightRows rows := by
  induction rows with
  | nil => simp [defaultRows]
  | cons row rows ih =>
    simp only [weightRows, defaultRows] at ih ⊢
    rcases row with _ | ⟨p, ps⟩
    · simp only [filterMap_cons, map_cons, sum_cons]
      omega
    · by_cases wild : isWild p = true
      · simp only [filterMap_cons, wild, if_true, map_cons, sum_cons, weightAll]
        omega
      · simp only [filterMap_cons, wild, false_eq_true, if_false, map_cons, sum_cons]
        omega

/-- Where some row looks inside, the specialised rows are lighter. -/
theorem weightRows_specialized {special : Pattern → Option (List Pattern)} (lighter : Lighter special)
    (rows : List (List Pattern)) : weightRows (specialized special rows) ≤ weightRows rows ∧
      ((¬ ∀ row ∈ rows, row.head?.elim false isWild = true) → weightRows (specialized special rows) < weightRows rows) := by
  induction rows with
  | nil => simp [specialized, weightRows]
  | cons row rows ih =>
    obtain ⟨le, lt⟩ := ih
    rcases row with _ | ⟨p, ps⟩
    · have eq : specialized special ([] :: rows) = specialized special rows := rfl
      simp only [eq, weightRows, map_cons, sum_cons] at le ⊢
      omega
    · cases found : special p with
      | none =>
        have eq : specialized special ((p :: ps) :: rows) = specialized special rows := by
          simp [specialized, found]
        simp only [eq, weightRows, map_cons, sum_cons] at le ⊢
        omega
      | some sub =>
        have eq : specialized special ((p :: ps) :: rows) = (sub ++ ps) :: specialized special rows := by
          simp [specialized, found]
        obtain ⟨here, strictly⟩ := lighter p sub found
        simp only [eq, weightRows, map_cons, sum_cons, weightAll_append, weightAll, forall_mem_cons,
          head?_cons, elim_some] at le lt ⊢
        refine ⟨by omega, fun looks => ?_⟩
        cases wild : isWild p with
        | false =>
          have := strictly wild
          omega
        | true =>
          have := lt fun all => looks ⟨wild, all⟩
          omega

namespace Checker

variable {c : Checker} {W : Type} {r : Render W}

/-! ## The search -/

/-- With enough fuel there is an answer. -/
def Ends (c : Checker) (r : Render W) (rows : List (List Pattern)) (tys : List Ty) : Prop :=
  ∃ n, (c.missingPatterns r n rows tys).isSome = true

theorem Ends.of_step {n : Nat} {rows : List (List Pattern)} {head : Ty} {rest : List Ty} {result : Option (List (List W))}
    (step : c.Step r (c.missingPatterns r n) rows head rest result) : c.Ends r rows (head :: rest) :=
  ⟨n + 1, by rw [missingPatterns_of_step step]; rfl⟩

/-- Finitely many searches end with the same fuel. -/
theorem ends_together {α : Type} {f : α → List (List Pattern)} {g : α → List Ty} {l : List α}
    (ends : ∀ a ∈ l, c.Ends r (f a) (g a)) : ∃ n, ∀ a ∈ l, (c.missingPatterns r n (f a) (g a)).isSome = true := by
  induction l with
  | nil => exact ⟨0, by simp⟩
  | cons a l ih =>
    simp only [forall_mem_cons] at ends
    obtain ⟨n, here⟩ := ends.1
    obtain ⟨m, rest⟩ := ih ends.2
    have lift : ∀ {k : Nat} {b : α}, k ≤ max n m → (c.missingPatterns r k (f b) (g b)).isSome = true →
        (c.missingPatterns r (max n m) (f b) (g b)).isSome = true := by
      intro k b le some_
      obtain ⟨result, done⟩ := isSome_iff_exists.mp some_
      rw [missingPatterns_mono le done]
      rfl
    refine ⟨max n m, forall_mem_cons.mpr ⟨lift (by omega) here, fun b mem => lift (by omega) (rest b mem)⟩⟩

/-- **The search ends on every matrix**, whatever the types of its columns are. -/
theorem missingPatterns_ends (r : Render W) (rows : List (List Pattern)) {tys : List Ty}
    (maps : ∀ t ∈ tys, t.Distinct) : c.Ends r rows tys := by
  obtain ⟨k, le⟩ : ∃ k, weightRows rows ≤ k := ⟨_, le_rfl⟩
  -- the patterns get smaller, or there are fewer columns
  induction k using Nat.strong_induction_on generalizing rows tys with
  | _ k lighter =>
    induction tys generalizing rows with
    | nil => exact ⟨1, rfl⟩
    | cons head rest fewer =>
      simp only [forall_mem_cons] at maps
      obtain ⟨n, byDefault⟩ := fewer (defaultRows rows) maps.2 ((weightRows_defaultRows rows).trans le)
      obtain ⟨ws, byDefault⟩ := isSome_iff_exists.mp byDefault
      have inside : ∀ {special ts}, Lighter special → (∀ t ∈ ts, t.Distinct) →
          (¬ ∀ row ∈ rows, row.head?.elim false isWild = true) →
          c.Ends r (specialized special rows) (ts ++ rest) := by
        intro special ts less maps' looks
        have lt := (weightRows_specialized less rows).2 looks
        exact lighter _ (lt.trans_le le) _ (forall_mem_append.mpr ⟨maps', maps.2⟩) le_rfl
      by_cases empty : rows = []
      · by_cases never : c.signatureOf head = .never
        · exact .of_step (n := 0) (.never never)
        · exact .of_step (n := 0) (.vacant never empty)
      cases sig : c.signatureOf head with
      | never => exact .of_step (n := 0) (.never sig)
      | opaque_ => exact .of_step (.opaque_ sig empty byDefault)
      | product fields kind =>
        by_cases wild : ∀ row ∈ rows, row.head?.elim false isWild = true
        · exact .of_step (.skipped sig empty wild byDefault)
        · obtain ⟨names, types⟩ := distinct_product maps.1 sig
          obtain ⟨m, some_⟩ := inside (lighter_specializeProduct names)
            (List.forall_mem_map.mpr types) wild
          obtain ⟨inner, found⟩ := isSome_iff_exists.mp some_
          exact .of_step (.product sig empty wild found)
      | ctors variants =>
        by_cases named : ∀ v ∈ variants, v.1 ∈ present rows
        · have each : ∀ v ∈ variants,
              c.Ends r (specialized (specializeCtor · v.1 v.2.isSome) rows) (v.2.toList ++ rest) := by
            intro v mem
            refine inside (lighter_specializeCtor v.1 v.2.isSome)
              (fun t memType => distinct_ctors maps.1 sig v mem t (by simpa using memType)) fun wild => ?_
            -- a row that names the constructor looks inside
            obtain ⟨row, memRow, names⟩ := mem_filterMap.mp (named v mem)
            rcases row with _ | ⟨p, ps⟩
            · cases names
            · have looks : isWild p = false := looks_of_headCtor names
              exact absurd (wild _ memRow) (by simp [looks])
          obtain ⟨m, all⟩ := ends_together each
          obtain ⟨inner, found⟩ := isSome_iff_exists.mp (firstHole_isSome all)
          exact .of_step (.complete sig empty named found)
        · exact .of_step (.incomplete sig empty named byDefault)

end Checker

end LexLang.Types
