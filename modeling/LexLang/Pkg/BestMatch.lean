/-
# LexLang.Pkg.BestMatch — what a constraint resolves to

`best_match` (`lex-syntax/src/semver.rs`), and what `^` and `~` mean for a version of one to three numbers
(`followsCargo_iff`).
-/
import LexLang.Pkg.Semver

namespace LexLang.Pkg

open LexLang.Vcs (stripPrefix)
open List Option

/-! ## The highest -/

/-- `max_by_key`: the last of the highest. -/
def maxByKey {α : Type} (key : α → Version) (xs : List α) : Option α :=
  xs.foldl (fun best x =>
    match best with
    | none => some x
    | some b => if key b ≤ key x then some x else some b) none

theorem maxByKey_spec {α : Type} (key : α → Version) (xs : List α) : (maxByKey key xs = none → xs = []) ∧
    ∀ best, maxByKey key xs = some best → best ∈ xs ∧ ∀ x ∈ xs, key x ≤ key best := by
  induction xs using reverseRecOn with
  | nil => exact ⟨fun _ => rfl, fun best h => nomatch h⟩
  | append_singleton xs x ih =>
    have hstep : maxByKey key (xs ++ [x]) =
        match maxByKey key xs with
        | none => some x
        | some b => if key b ≤ key x then some x else some b := by
      unfold maxByKey
      rw [foldl_append]
      rfl
    rw [hstep]
    obtain ⟨hnone, hsome⟩ := ih
    cases hbest : maxByKey key xs with
    | none =>
      rw [hnone hbest]
      simp [Version.le_refl]
    | some b =>
      obtain ⟨hb, hmax⟩ := hsome b hbest
      dsimp only
      split
      · next hle =>
        refine ⟨by simp, fun best h => ?_⟩
        obtain rfl := some.inj h
        simp only [mem_append, mem_singleton, or_true, true_and]
        rintro y (hy | rfl)
        · exact Version.le_trans (hmax y hy) hle
        · exact Version.le_refl _
      · next hnot =>
        refine ⟨by simp, fun best h => ?_⟩
        obtain rfl := some.inj h
        refine ⟨mem_append_left _ hb, ?_⟩
        simp only [mem_append, mem_singleton]
        rintro y (hy | rfl)
        · exact hmax y hy
        · exact Version.le_of_lt (not_not.mp hnot)

/-- The highest listed version that satisfies a constraint. -/
def bestMatch (c : String) (versions : List String) : Option String :=
  maxByKey (fun v => (parseExact v).getD ⟨0, 0, 0⟩) (versions.filter (satisfies c))

/-! ## Constraints -/

/-- A version is one that a constraint allows. -/
def Allowed (c : String) (q : Version) : Prop := ∃ con, parseConstraint c.toList = some con ∧ con.allows q = true

/-- **What a constraint promises**: its range is the one it is for, a text satisfies it as a version that is allowed,
and it resolves to the highest that satisfies it. -/
structure FollowsCargo (c : String) : Prop where
  range : ∀ r v given, readRange c.toList = some (r, v, given) → ∀ q, Allowed c q ↔ v ≤ q ∧ r.Keeps v given q
  satisfies : ∀ text, satisfies c text = true ↔ ∃ q, parseExact text = some q ∧ Allowed c q
  best : ∀ versions v, bestMatch c versions = some v → v ∈ versions ∧ ∃ q, parseExact v = some q ∧ Allowed c q ∧
    ∀ other ∈ versions, ∀ q', parseExact other = some q' → Allowed c q' → q' ≤ q
  none : ∀ versions, bestMatch c versions = none ↔ ∀ v ∈ versions, LexLang.Pkg.satisfies c v = false

theorem satisfies_iff {c text : String} :
    satisfies c text = true ↔ ∃ q, parseExact text = some q ∧ Allowed c q := by
  unfold satisfies Allowed
  cases parseConstraint c.toList <;> cases parseExact text <;> simp

/-- **A constraint keeps its promise exactly where the number that its end counts on from is not the last.** -/
theorem followsCargo_iff (c : String) : FollowsCargo c ↔
    ∀ r v given, readRange c.toList = some (r, v, given) → r.counted v given + 1 < 2 ^ 64 := by
  have hrange : ∀ r v given, readRange c.toList = some (r, v, given) →
      ((∀ q, Allowed c q ↔ v ≤ q ∧ r.Keeps v given q) ↔ r.counted v given + 1 < 2 ^ 64) := by
    intro r v given hread
    obtain ⟨hparse, rest, hrest⟩ := readRange_spec hread
    rw [← Range.allows_iff hrest]
    simp [Allowed, hparse]
  constructor
  · exact fun h r v given hread => (hrange r v given hread).mp (h.range r v given hread)
  · intro hfits
    have hbest := fun versions : List String => maxByKey_spec (fun v => (parseExact v).getD ⟨0, 0, 0⟩) (versions.filter (satisfies c))
    refine ⟨fun r v given hread => (hrange r v given hread).mpr (hfits r v given hread), fun _ => satisfies_iff,
      fun versions v h => ?_, fun versions => ⟨fun h => ?_, fun h => ?_⟩⟩
    · obtain ⟨hmem, hmax⟩ := (hbest versions).2 v h
      obtain ⟨hlisted, hsat⟩ := mem_filter.mp hmem
      obtain ⟨q, hq, hallowed⟩ := satisfies_iff.mp hsat
      refine ⟨hlisted, q, hq, hallowed, fun other hother q' hq' hallowed' => ?_⟩
      simpa [hq, hq'] using hmax other (mem_filter.mpr ⟨hother, satisfies_iff.mpr ⟨q', hq', hallowed'⟩⟩)
    · simpa [filter_eq_nil_iff] using (hbest versions).1 h
    · simp [bestMatch, filter_eq_nil_iff.mpr (by simpa using h), maxByKey]

end LexLang.Pkg
