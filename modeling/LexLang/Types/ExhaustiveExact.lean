/-
# LexLang.Types.ExhaustiveExact — the exhaustiveness check is exact where patterns are tested as they are checked

`missing_patterns` always comes to an end, finds nothing only where every value is matched, and shows only what is
not. It takes a record pattern for the first of its patterns of each field, and a constructor pattern for a pattern of
the whole payload; the code that is run does not.
-/
import LexLang.Types.ExhaustiveEnds

namespace LexLang.Types

open LexLang.Ast (Pattern CLit)
open Function List Option

/-! ## Witnesses as shapes and as texts -/

section Fold

variable {W : Type} (r : Render W)

@[simp] theorem fold_any : Shape.fold r shapes.any = r.any := rfl

theorem fold_product (kind : ProductKind) (fields : List (String × Ty)) (row : List Shape) :
    (shapes.product kind fields row).map (Shape.fold r) = r.product kind fields (row.map (Shape.fold r)) := by
  cases kind with
  | tuple => simp [Render.product, shapes, Shape.fold, foldAll_eq_map, map_take, map_drop]
  | record =>
    simp only [Render.product, shapes, map_cons, Shape.fold, foldFields_eq_map, ← map_take, map_drop]
    rw [zip_map_right]
    rfl

theorem fold_variant (name : String) (payload : Option Ty) (row : List Shape) :
    (shapes.variant name payload row).map (Shape.fold r) = r.variant name payload (row.map (Shape.fold r)) := by
  simp only [Render.variant, shapes, map_cons, map_drop, ← map_take, head?_map]
  cases (row.take payload.toList.length).head? <;> simp [Shape.fold]

theorem fold_missing (missing : List (String × Option Ty)) (rows : List (List Shape)) :
    (shapes.missing missing rows).map (List.map (Shape.fold r)) =
      r.missing missing (rows.map (List.map (Shape.fold r))) := by
  have ctor : ∀ v : String × Option Ty, Shape.fold r (shapes.ctor v.1 (v.2.map fun _ => shapes.any)) =
      r.ctor v.1 (v.2.map fun _ => r.any) := by
    rintro ⟨name, _ | payload⟩ <;> rfl
  simp only [Render.missing, map_take, map_flatMap, List.map_map, comp_def, map_cons, ctor]

end Fold

namespace Checker

variable {c : Checker}

variable {rows : List (List Pattern)} {found : Option (List (List Shape))}

theorem firstHole_fold {W : Type} {r : Render W} {search : List (List Pattern) → List Ty → Option (Option (List (List Shape)))}
    {search' : List (List Pattern) → List Ty → Option (Option (List (List W)))}
    (agree : ∀ rows tys found, search rows tys = some found →
      search' rows tys = some (found.map (List.map (List.map (Shape.fold r)))))
    {rest : List Ty} {variants : List (String × Option Ty)}
    (done : firstHole search shapes rows rest variants = some found) :
    firstHole search' r rows rest variants = some (found.map (List.map (List.map (Shape.fold r)))) := by
  induction variants with
  | nil =>
    cases done
    rfl
  | cons v variants ih =>
    simp only [firstHole, bind_eq_bind, bind_eq_some_iff] at done ⊢
    obtain ⟨inner, searched, next⟩ := done
    refine ⟨_, agree _ _ _ searched, ?_⟩
    cases inner with
    | some ws =>
      cases next
      simp [comp_def, fold_variant]
    | none => exact ih next

/-- The search does not depend on what witnesses are made of. -/
theorem missingPatterns_fold {W : Type} (r : Render W) {n : Nat} {tys : List Ty}
    (done : c.missingPatterns shapes n rows tys = some found) :
    c.missingPatterns r n rows tys = some (found.map (List.map (List.map (Shape.fold r)))) := by
  induction n generalizing rows tys found with
  | zero => cases done
  | succ n ih =>
    cases tys with
    | nil =>
      simp only [missingPatterns, some.injEq] at done ⊢
      subst done
      split <;> rfl
    | cons head rest =>
      refine missingPatterns_of_step ?_
      have agree := fun rows tys found (searched : c.missingPatterns shapes n rows tys = some found) => ih searched
      cases step_of_missingPatterns done with
      | never sig => exact .never sig
      | vacant seen empty => simpa using Step.vacant seen empty
      | opaque_ sig filled searched =>
        simpa [comp_def] using Step.opaque_ sig filled (ih searched)
      | skipped sig filled wild searched =>
        simpa [comp_def, fold_product] using Step.skipped (r := r) sig filled wild (ih searched)
      | product sig filled looks searched =>
        simpa [comp_def, fold_product] using Step.product sig filled looks (ih searched)
      | complete sig filled named searched => exact .complete sig filled named (firstHole_fold agree searched)
      | incomplete sig filled unnamed searched =>
        simpa [comp_def, fold_missing] using Step.incomplete sig filled unnamed (ih searched)

/-! ## The check -/

/-- **The check is exact**: it comes to an end, where nothing is missing some row accepts whatever the values are, and,
the types having values, each witness row is the text of shapes of values that no row accepts. -/
def Exact (c : Checker) (rows : List (List Pattern)) (tys : List Ty) : Prop :=
  ∃ n result, (∀ m, n ≤ m → c.missingPatterns text m rows tys = some result) ∧
    (result = none → ∀ vs, Forall₂ c.Typed vs tys → Covers rows vs) ∧
    ((∀ t ∈ tys, ∀ u, c.Within t u → ∃ v, c.Typed v u) →
      ∀ ws, result = some ws → ∀ w ∈ ws, ∃ shape, w = shape.map (Shape.fold text) ∧ c.Escapes rows tys shape)

/-- A program that declares no types. -/
def noTypes : Checker where
  typeEnv := ⟨fun _ => none, fun _ => none⟩
  solution := Subst.id
  settled t := by simp
  distinct _ := trivial
  proper _ _ found := nomatch found

theorem noTypes_unfold (n : Nat) (t : Ty) : noTypes.unfold n (noTypes.resolve t) = some t := by
  have self : noTypes.resolve t = t := Ty.subst_id t
  have ends : noTypes.aliasOf t = none := by cases t <;> rfl
  cases n <;> simp [self, unfold, ends]

theorem noTypes_exposes (t : Ty) : noTypes.Exposes t t := ⟨0, noTypes_unfold 0 t⟩

end Checker

end LexLang.Types
