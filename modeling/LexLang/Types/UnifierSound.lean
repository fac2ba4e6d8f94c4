/-
# LexLang.Types.UnifierSound — what a run of unifications keeps and what it makes equal

Every state that calls reach has a **solution**, the substitution that its bindings come down to, and a **rank** that
falls along them; a call composes the solution with what it binds. Reading a type terminates because of the rank and
gives its instance under the solution.
-/
import LexLang.Types.Unifier
import Mathlib.Data.Finset.Lattice.Lemmas

namespace LexLang.Types

open Finset Function Option

variable {v e : Nat} {t : Ty} {row r : EffectSet}

namespace Subst

@[simp] theorem comp_id (s : Subst) : s.comp id = s := by simp [comp]

@[simp] theorem comp_comp (s k l : Subst) : (s.comp k).comp l = s.comp (k.comp l) := by simp [comp]

theorem bindTy_row (v : Nat) (t : Ty) (row : EffectSet) : row.subst (bindTy v t) = row :=
  (EffectSet.subst_congr (p := fun _ => True) (fun _ _ => rfl) fun _ _ => trivial).trans row.subst_id

theorem bindTy_absent {u : Ty} (absent : u.Vars (· ≠ .ty v)) : u.subst (bindTy v t) = u := by
  have agree : u.subst (bindTy v t) = u.subst id := by
    refine Ty.subst_congr_vars (fun w ne => ?_) (fun e _ => ?_) absent
    · have differ : w ≠ v := fun eq => ne (eq ▸ rfl)
      simp [bindTy, differ]
    · rfl
  rw [agree, Ty.subst_id]

theorem bindRow_absent (absent : r.Vars (· ≠ .row e)) : r.subst (bindRow e row) = r := by
  have agree : r.subst (bindRow e row) = r.subst id := by
    refine EffectSet.subst_congr (fun w ne => ?_) absent
    have differ : w ≠ e := fun eq => ne (eq ▸ rfl)
    simp [bindRow, differ]
  rw [agree, EffectSet.subst_id]

end Subst

namespace Unifier

/-! ## Solution and rank -/

/-- Nothing is bound to the variable. -/
def Unbound (u : Unifier) : Variable → Prop
  | .ty v => u.subst v = none
  | .row e => u.effSubst e = none

/-- The substitution that the bindings come down to. -/
structure Solves (u : Unifier) (s : Subst) : Prop where
  ty : ∀ v t, u.subst v = some t → s.ty v = t.subst s
  tyFree : ∀ v, u.subst v = none → s.ty v = .var v
  row : ∀ e r, u.effSubst e = some r → s.row e = r.subst s
  rowFree : ∀ e, u.effSubst e = none → s.row e = ⟨∅, some e⟩
  unboundTy : ∀ v, (s.ty v).Vars u.Unbound
  unboundRow : ∀ e, (s.row e).Vars u.Unbound
  distinct : ∀ v, (s.ty v).Distinct

/-- What a variable is bound to has only variables of a lower rank. -/
structure Ranked (u : Unifier) (rank : Variable → Nat) : Prop where
  ty : ∀ v t, u.subst v = some t → t.Vars fun x => rank x < rank (.ty v)
  row : ∀ e r, u.effSubst e = some r → r.Vars fun x => rank x < rank (.row e)

/-- The first variable occurs in what the second is bound to. -/
def Occurs (u : Unifier) (x : Variable) : Variable → Prop
  | .ty v => ∃ t, u.subst v = some t ∧ ¬ t.Vars (· ≠ x)
  | .row e => ∃ r, u.effSubst e = some r ∧ ¬ r.Vars (· ≠ x)

/-- No chain of bindings is endless. -/
def Acyclic (u : Unifier) : Prop := WellFounded u.Occurs

theorem Ranked.acyclic {u : Unifier} {rank : Variable → Nat} (h : Ranked u rank) : u.Acyclic := by
  refine Subrelation.wf (fun {x y} occurs => ?_) (measure rank).wf
  show rank x < rank y
  by_contra above
  cases y with
  | ty v =>
    obtain ⟨t, bound, mentions⟩ := occurs
    refine mentions (Ty.Vars.mono (fun y below => ?_) (h.ty v t bound))
    rintro rfl
    exact above below
  | row e =>
    obtain ⟨r, bound, mentions⟩ := occurs
    refine mentions fun w found eq => above ?_
    exact eq ▸ h.row e r bound w found

variable {u u' : Unifier} {s k : Subst} {rank : Variable → Nat}

/-! ## Reading -/

variable (h : Solves u s)
include h

/-- What a solution makes of a type has only unbound variables. -/
theorem Solves.vars (t : Ty) : (t.subst s).Vars u.Unbound :=
  Ty.vars_subst (p := fun _ => True) (fun v _ => h.unboundTy v) (fun e _ => h.unboundRow e)
    (t.vars_of_forall fun _ => trivial)

theorem Solves.rowVars (row : EffectSet) : (row.subst s).Vars u.Unbound :=
  EffectSet.vars_subst (p := fun _ => True) (fun e _ => h.unboundRow e) fun _ _ => trivial

/-- A solution leaves what has only unbound variables alone. -/
theorem Solves.fixed (unbound : t.Vars u.Unbound) : t.subst s = t := by
  have agree : t.subst s = t.subst Subst.id := Ty.subst_congr_vars h.tyFree h.rowFree unbound
  rw [agree, Ty.subst_id]

theorem Solves.rowFixed (unbound : row.Vars u.Unbound) : row.subst s = row := by
  have agree : row.subst s = row.subst Subst.id := EffectSet.subst_congr h.rowFree unbound
  rw [agree, EffectSet.subst_id]

variable {fuel : Nat}

theorem Solves.followRow {concrete : Finset EffectKind} {var : Option Nat}
    (run : u.followRow fuel concrete var = some row) : row = EffectSet.subst s ⟨concrete, var⟩ := by
  induction fuel generalizing concrete var with
  | zero =>
    cases var with
    | none => simpa [Unifier.followRow, EffectSet.subst, eq_comm] using run
    | some v => simp [Unifier.followRow] at run
  | succ fuel ih =>
    cases var with
    | none => simpa [Unifier.followRow, EffectSet.subst, eq_comm] using run
    | some v =>
      simp only [Unifier.followRow] at run
      cases bound : u.effSubst v with
      | none =>
        simp only [bound, some.injEq] at run
        simp [← run, EffectSet.subst, h.rowFree v bound]
      | some r =>
        simp only [bound] at run
        rw [ih run]
        -- the effects gathered so far and those of the rest of the chain
        simp only [EffectSet.subst, h.row v r bound]
        cases further : r.var <;> simp [further]

theorem Solves.resolveEffects {row' : EffectSet} (run : u.resolveEffects fuel row = some row') : row' = row.subst s :=
  h.followRow run

/-- **Reading a type gives its instance under the solution.** -/
theorem Solves.resolve {t' : Ty} (run : u.resolve fuel t = some t') : t' = t.subst s := by
  induction fuel generalizing t t' with
  | zero => cases run
  | succ fuel ih =>
    refine Ty.traverse_sound (fun v t found => ?_) (fun row row' found => h.resolveEffects found) run
    cases bound : u.subst v with
    | none =>
      simp only [bound, some.injEq] at found
      rw [h.tyFree v bound, found]
    | some t2 =>
      simp only [bound] at found
      rw [h.ty v t2 bound, ih found]

omit h

theorem Ranked.followRow (h : Ranked u rank) {n : Nat} {concrete : Finset EffectKind} {var : Option Nat}
    (below : ∀ e, var = some e → rank (.row e) < n) : (u.followRow n concrete var).isSome := by
  induction n generalizing concrete var with
  | zero =>
    cases var with
    | none => rfl
    | some e => exact absurd (below e rfl) (Nat.not_lt_zero _)
  | succ n ih =>
    cases var with
    | none => rfl
    | some e =>
      simp only [Unifier.followRow]
      cases bound : u.effSubst e with
      | none => rfl
      | some r =>
        refine ih fun w found => ?_
        have lower := h.row e r bound w found
        have upper := below e rfl
        omega

theorem Ranked.resolve (h : Ranked u rank) {n : Nat} (below : t.Vars fun x => rank x < n) :
    (u.resolve (n + 1) t).isSome := by
  induction n generalizing t with
  | zero =>
    refine Ty.traverse_total (Ty.Everywhere.mono (fun part here => ?_) below)
    cases part with
    | var v => exact absurd here (Nat.not_lt_zero _)
    | function params effects ret => exact h.followRow here
    | _ => trivial
  | succ n ih =>
    refine Ty.traverse_total (Ty.Everywhere.mono (fun part here => ?_) below)
    cases part with
    | var v =>
      show isSome _
      cases bound : u.subst v with
      | none => rfl
      | some t2 =>
        refine ih ((h.ty v t2 bound).mono fun x lower => ?_)
        have upper : rank (.ty v) < n + 1 := here
        omega
    | function params effects ret => exact h.followRow here
    | _ => trivial

/-- **Reading terminates.** -/
theorem Ranked.resolve_terminates (h : Ranked u rank) (t : Ty) : ∃ fuel, (u.resolve fuel t).isSome :=
  (t.vars_bounded rank).elim fun n below => ⟨n + 1, h.resolve below⟩

theorem Ranked.resolveEffects_terminates (h : Ranked u rank) (row : EffectSet) :
    ∃ fuel, (u.resolveEffects fuel row).isSome := by
  cases found : row.var with
  | none => exact ⟨0, h.followRow (by simp [found])⟩
  | some e => exact ⟨rank (.row e) + 1, h.followRow (by simp [found])⟩

/-! ## One binding -/

variable {x : Variable}

theorem unbound_bindTy (free : u.Unbound x) (other : x ≠ .ty v) : (u.bindTy v t).Unbound x := by
  cases x with
  | ty w =>
    have differ : w ≠ v := fun eq => other (eq ▸ rfl)
    simpa [Unbound, Unifier.bindTy, differ] using free
  | row e => exact free

theorem unbound_bindRow (free : u.Unbound x) (other : x ≠ .row e) : (u.bindRow e row).Unbound x := by
  cases x with
  | ty v => exact free
  | row f =>
    have differ : f ≠ e := fun eq => other (eq ▸ rfl)
    simpa [Unbound, Unifier.bindRow, differ] using free

/-- **A binding of a type variable** to a type that has only other unbound variables is composed into the
solution. -/
theorem Solves.bindTy (h : Solves u s) (unbound : u.subst v = none) (read : t.Vars u.Unbound)
    (absent : t.Vars (· ≠ .ty v)) (distinct : t.Distinct) : Solves (u.bindTy v t) (s.comp (Subst.bindTy v t)) where
  ty w t2 bound := by
    by_cases eq : w = v
    · subst eq
      simp only [Unifier.bindTy, update_self, some.injEq] at bound
      subst bound
      -- the type is fixed by the old solution and by the binding
      rw [← Ty.subst_subst, h.fixed read, Subst.bindTy_absent absent]
      simp [Subst.comp, h.tyFree w unbound, Ty.subst, Subst.bindTy]
    · simp only [Unifier.bindTy, ne_eq, eq, not_false_eq_true, update_of_ne] at bound
      show (s.ty w).subst _ = _
      rw [h.ty w t2 bound, Ty.subst_subst]
  tyFree w free := by
    have differ : w ≠ v := fun eq => by simp [Unifier.bindTy, eq] at free
    simp only [Unifier.bindTy, ne_eq, differ, not_false_eq_true, update_of_ne] at free
    simp [Subst.comp, h.tyFree w free, Ty.subst, Subst.bindTy, differ, Subst.id]
  row e r bound := by
    show (s.row e).subst _ = _
    rw [h.row e r bound, EffectSet.subst_subst]
  rowFree e free := by
    show (s.row e).subst _ = _
    rw [h.rowFree e free, Subst.bindTy_row]
  unboundTy w := by
    refine Ty.vars_subst (fun x free => ?_) (fun e free => ?_) (h.unboundTy w)
    · by_cases eq : x = v
      · have kept := (read.and absent).mono fun y there => unbound_bindTy (t := t) there.1 there.2
        simpa [Subst.bindTy, eq] using kept
      · have kept : (u.bindTy v t).Unbound (.ty x) := unbound_bindTy free (by simpa using eq)
        simpa [Subst.bindTy, Subst.id, eq, Ty.Vars, Ty.Everywhere] using kept
    · intro f found
      obtain rfl : e = f := by simpa [Subst.bindTy, Subst.id] using found
      exact unbound_bindTy free (by simp)
  unboundRow e := by
    show EffectSet.Vars _ ((s.row e).subst _)
    rw [Subst.bindTy_row]
    exact fun f found => unbound_bindTy (h.unboundRow e f found) (by simp)
  distinct w := by
    refine Ty.distinct_subst (fun x => ?_) (h.distinct w)
    by_cases eq : x = v
    · simpa [Subst.bindTy, eq] using distinct
    · simp [Subst.bindTy, Subst.id, eq, Ty.Distinct, Ty.Everywhere]

theorem bindRow_vars {f : Nat} (read : r.Vars u.Unbound) (absent : r.Vars (· ≠ .row e))
    (free : u.Unbound (.row f)) : ((Subst.bindRow e r).row f).Vars (u.bindRow e r).Unbound := by
  intro g found
  by_cases eq : f = e
  · subst eq
    have there : r.var = some g := by simpa [Subst.bindRow] using found
    exact unbound_bindRow (read g there) (absent g there)
  · obtain rfl : f = g := by simpa [Subst.bindRow, Subst.id, eq] using found
    exact unbound_bindRow free (by simpa using eq)

/-- **A binding of a row variable** to a row whose variable is another unbound one is composed into the solution. -/
theorem Solves.bindRow (h : Solves u s) (unbound : u.effSubst e = none)
    (read : r.Vars u.Unbound) (absent : r.Vars (· ≠ .row e)) :
    Solves (u.bindRow e r) (s.comp (Subst.bindRow e r)) where
  ty w t bound := by
    show (s.ty w).subst _ = _
    rw [h.ty w t bound, Ty.subst_subst]
  tyFree w free := by
    simp [Subst.comp, h.tyFree w free, Ty.subst, Subst.bindRow, Subst.id]
  row f r2 bound := by
    by_cases eq : f = e
    · subst eq
      simp only [Unifier.bindRow, update_self, some.injEq] at bound
      subst bound
      rw [← EffectSet.subst_subst, h.rowFixed read, Subst.bindRow_absent absent]
      simp [Subst.comp, h.rowFree f unbound, EffectSet.subst, Subst.bindRow]
    · simp only [Unifier.bindRow, ne_eq, eq, not_false_eq_true, update_of_ne] at bound
      show (s.row f).subst _ = _
      rw [h.row f r2 bound, EffectSet.subst_subst]
  rowFree f free := by
    have differ : f ≠ e := fun eq => by simp [Unifier.bindRow, eq] at free
    simp only [Unifier.bindRow, ne_eq, differ, not_false_eq_true, update_of_ne] at free
    simp [Subst.comp, h.rowFree f free, EffectSet.subst, Subst.bindRow, differ, Subst.id]
  unboundTy w := by
    refine Ty.vars_subst (fun x free => ?_) (fun f free => ?_) (h.unboundTy w)
    · exact unbound_bindRow free (by simp)
    · exact bindRow_vars read absent free
  unboundRow f := EffectSet.vars_subst (fun f free => bindRow_vars read absent free) (h.unboundRow f)
  distinct w := Ty.distinct_subst (fun x => by simp [Subst.bindRow, Subst.id, Ty.Distinct, Ty.Everywhere]) (h.distinct w)

/-! ### The rank of a new binding -/

open Classical in
/-- Unbound variables come last, but for the one to be bound. -/
noncomputable def bump (u : Unifier) (rank : Variable → Nat) (x y : Variable) : Nat :=
  if u.Unbound y then if y = x then 1 else 0 else rank y + 2

theorem bump_lt {y z : Variable} (bound : ¬ u.Unbound z) (lower : rank y < rank z) :
    u.bump rank x y < u.bump rank x z := by
  simp only [bump]
  split_ifs <;> omega

theorem bump_below {y : Variable} (unbound : u.Unbound x) (free : u.Unbound y) (other : y ≠ x) :
    u.bump rank x y < u.bump rank x x := by
  simp [bump, unbound, free, other]

theorem Ranked.bindTy (h : Ranked u rank) (unbound : u.subst v = none) (read : t.Vars u.Unbound)
    (absent : t.Vars (· ≠ .ty v)) : Ranked (u.bindTy v t) (u.bump rank (.ty v)) where
  ty w t2 bound := by
    by_cases eq : w = v
    · subst eq
      simp only [Unifier.bindTy, update_self, some.injEq] at bound
      subst bound
      have free : u.Unbound (.ty w) := unbound
      exact (read.and absent).mono fun x there => bump_below free there.1 there.2
    · simp only [Unifier.bindTy, ne_eq, eq, not_false_eq_true, update_of_ne] at bound
      exact (h.ty w t2 bound).mono fun x lower => bump_lt (by simp [Unbound, bound]) lower
  row e r bound := by
    intro f found
    have taken : u.effSubst e = some r := bound
    exact bump_lt (by simp [Unbound, taken]) (h.row e r bound f found)

theorem Ranked.bindRow (h : Ranked u rank) (unbound : u.effSubst e = none)
    (read : r.Vars u.Unbound) (absent : r.Vars (· ≠ .row e)) : Ranked (u.bindRow e r) (u.bump rank (.row e)) where
  ty w t bound := by
    have taken : u.subst w = some t := bound
    exact (h.ty w t taken).mono fun x lower => bump_lt (by simp [Unbound, taken]) lower
  row f r2 bound := by
    intro g found
    by_cases eq : f = e
    · subst eq
      simp only [Unifier.bindRow, update_self, some.injEq] at bound
      subst bound
      have free : u.Unbound (.row f) := unbound
      exact bump_below free (read g found) (absent g found)
    · simp only [Unifier.bindRow, ne_eq, eq, not_false_eq_true, update_of_ne] at bound
      exact bump_lt (by simp [Unbound, bound]) (h.row f r2 bound g found)

/-! ## What a call does -/

/-- The unifier has a solution and a rank. -/
structure Solved (u : Unifier) (s : Subst) : Prop extends Solves u s where
  ranked : ∃ rank, Ranked u rank

/-- A later unifier composes the solution with a substitution. -/
structure Refines (u : Unifier) (s : Subst) (u' : Unifier) (k : Subst) : Prop where
  solved : Solved u' (s.comp k)
  deferred : u.deferred ≤ u'.deferred
  distinct : ∀ v, (k.ty v).Distinct

theorem Solved.refl (h : Solved u s) : Refines u s u Subst.id where
  solved := by rwa [Subst.comp_id]
  deferred := Nat.le_refl _
  distinct v := trivial

theorem Refines.trans {u₁ : Unifier} {l : Subst} (h : Refines u s u₁ k) (next : Refines u₁ (s.comp k) u' l) :
    Refines u s u' (k.comp l) where
  solved := by
    rw [← Subst.comp_comp]
    exact next.solved
  deferred := Nat.le_trans h.deferred next.deferred
  distinct v := Ty.distinct_subst next.distinct (h.distinct v)

/-- Whatever the outcome is, the solution is refined; and when the call succeeds without the deferred case, the
refinement is a good one. -/
def Meets (o : Outcome) (u : Unifier) (s : Subst) (good : Subst → Prop) : Prop :=
  ∀ r u', o = some (r, u') → ∃ k, Refines u s u' k ∧ (r = .ok () → u'.deferred = u.deferred → good k)

variable {good good' : Subst → Prop}

theorem Meets.mono {o : Outcome} (h : Meets o u s good) (imp : ∀ k, (∀ v, (k.ty v).Distinct) → good k → good' k) :
    Meets o u s good' := by
  intro r u' run
  obtain ⟨k, refines, holds⟩ := h r u' run
  exact ⟨k, refines, fun ok same => imp k refines.distinct (holds ok same)⟩

theorem Solved.accept (h : Solved u s) (holds : good Subst.id) : Meets u.accept u s good := by
  rintro r u' ⟨⟩
  exact ⟨Subst.id, h.refl, fun _ _ => holds⟩

theorem Solved.refuse (h : Solved u s) (e : UnifyError) : Meets (u.refuse e) u s good := by
  rintro r u' ⟨⟩
  exact ⟨Subst.id, h.refl, fun ok => nomatch ok⟩

/-- The rule of `?`: the second call starts from the refinement of the first. -/
theorem Meets.andThen {o : Outcome} {next : Unifier → Outcome} {rest : Subst → Subst → Prop}
    (first : Meets o u s good) (second : ∀ u₁ k, Solved u₁ (s.comp k) → Meets (next u₁) u₁ (s.comp k) (rest k))
    (both : ∀ k l, (∀ v, (l.ty v).Distinct) → good k → rest k l → good' (k.comp l)) :
    Meets (o.andThen next) u s good' := by
  intro r u' run
  match o, run with
  | some (.error e, u₁), run =>
    obtain ⟨⟨⟩, rfl⟩ := run
    obtain ⟨k, refines, -⟩ := first _ _ rfl
    exact ⟨k, refines, fun ok => nomatch ok⟩
  | some (.ok (), u₁), run =>
    obtain ⟨k, refines, holds⟩ := first _ _ rfl
    obtain ⟨l, refines', holds'⟩ := second u₁ k refines.solved r u' run
    refine ⟨k.comp l, refines.trans refines', fun ok same => ?_⟩
    have le := refines.deferred
    have le' := refines'.deferred
    exact both k l refines'.distinct (holds rfl (by omega)) (holds' ok (by omega))

/-! ## Rows -/

/-- The right row can take in what the left one has: it is closed, or it has the left variable, or it lacks none of the
left effects. -/
def Absorbs (a b : EffectSet) : Prop :=
  ∀ va vb, a.var = some va → b.var = some vb → va ≠ vb → a.concrete ⊆ b.concrete

theorem vars_closed {p : Variable → Prop} (c : Finset EffectKind) : EffectSet.Vars p ⟨c, none⟩ := by
  intro e found
  cases found

theorem subst_bindRow_self {c : Finset EffectKind} :
    EffectSet.subst (Subst.bindRow e r) ⟨c, some e⟩ = ⟨c ∪ r.concrete, r.var⟩ := by
  simp [EffectSet.subst, Subst.bindRow]

/-- The counters have no part in the solution. -/
theorem Solved.relabel (h : Solved u s) (types : u'.subst = u.subst) (rows : u'.effSubst = u.effSubst) :
    Solved u' s := by
  cases u
  cases u'
  cases types
  cases rows
  obtain ⟨solves, rank, ranked⟩ := h
  exact ⟨⟨solves.ty, solves.tyFree, solves.row, solves.rowFree, solves.unboundTy, solves.unboundRow, solves.distinct⟩,
    rank, ranked.ty, ranked.row⟩

theorem Solved.bindRow (h : Solved u s) (unbound : u.Unbound (.row e))
    (read : r.Vars u.Unbound) (absent : r.Vars (· ≠ .row e)) (types : u'.subst = u.subst)
    (rows : u'.effSubst = (u.bindRow e r).effSubst) (deferred : u.deferred ≤ u'.deferred) :
    Refines u s u' (Subst.bindRow e r) where
  solved := by
    obtain ⟨rank, ranked⟩ := h.ranked
    have bound : Solved (u.bindRow e r) (s.comp (Subst.bindRow e r)) :=
      ⟨h.toSolves.bindRow unbound read absent, _, ranked.bindRow unbound read absent⟩
    exact bound.relabel types rows
  deferred := deferred
  distinct v := trivial

variable {r : Except UnifyError Unit}

theorem accept_eq {u₁ : Unifier} : u.accept = some (r, u₁) ↔ r = .ok () ∧ u₁ = u := by
  simp [Unifier.accept, eq_comm]

theorem refuse_eq {u₁ : Unifier} {e : UnifyError} :
    u.refuse e = some (r, u₁) ↔ r = .error e ∧ u₁ = u := by
  simp [Unifier.refuse, eq_comm]

/-- **Two rows are unified**: the call refines the solution by a row, and then the two rows are equal exactly when the
right one absorbed the left one. -/
theorem Solved.unifyEffects (h : Solved u s) {a b : EffectSet}
    (run : unifyEffects fuel u a b = some (r, u')) : ∃ k, Refines u s u' k ∧ k.ty = Ty.var ∧ (r = .ok () →
      (u'.deferred = u.deferred ↔ Absorbs (a.subst s) (b.subst s)) ∧
      (a.subst (s.comp k) = b.subst (s.comp k) ↔ Absorbs (a.subst s) (b.subst s))) := by
  simp only [Unifier.unifyEffects, bind_eq_bind, bind_eq_some_iff] at run
  obtain ⟨a', readA, b', readB, run⟩ := run
  obtain rfl := h.resolveEffects readA
  obtain rfl := h.resolveEffects readB
  simp only [← EffectSet.subst_subst]
  have freeA := h.rowVars a
  have freeB := h.rowVars b
  revert run freeA freeB
  generalize a.subst s = a
  generalize b.subst s = b
  obtain ⟨ca, va⟩ := a
  obtain ⟨cb, vb⟩ := b
  intro run freeA freeB
  cases va with
  | none =>
    cases vb with
    | none =>
      -- both are closed
      simp only at run
      split_ifs at run with eq
      · obtain ⟨rfl, rfl⟩ := accept_eq.mp run
        exact ⟨Subst.id, h.refl, rfl, fun _ => by simp [Absorbs, eq]⟩
      · obtain ⟨rfl, rfl⟩ := refuse_eq.mp run
        exact ⟨Subst.id, h.refl, rfl, by simp⟩
    | some e =>
      -- the right variable takes what the right row lacks
      simp only at run
      split_ifs at run with sub
      · obtain ⟨rfl, rfl⟩ := accept_eq.mp run
        have made : Refines u s (u.bindRow e ⟨ca \ cb, none⟩) (Subst.bindRow e ⟨ca \ cb, none⟩) :=
          h.bindRow (freeB e rfl) (vars_closed _) (vars_closed _) rfl rfl (Nat.le_refl _)
        refine ⟨_, made, rfl, fun _ => ⟨by simp [Absorbs, Unifier.bindRow], ?_⟩⟩
        rw [subst_bindRow_self, union_sdiff_of_subset sub]
        simp [Absorbs, EffectSet.subst]
      · obtain ⟨rfl, rfl⟩ := refuse_eq.mp run
        exact ⟨Subst.id, h.refl, rfl, by simp⟩
  | some e =>
    cases vb with
    | none =>
      -- the left variable takes what the left row lacks
      simp only at run
      split_ifs at run with sub
      · obtain ⟨rfl, rfl⟩ := accept_eq.mp run
        have made : Refines u s (u.bindRow e ⟨cb \ ca, none⟩) (Subst.bindRow e ⟨cb \ ca, none⟩) :=
          h.bindRow (freeA e rfl) (vars_closed _) (vars_closed _) rfl rfl (Nat.le_refl _)
        refine ⟨_, made, rfl, fun _ => ⟨by simp [Absorbs, Unifier.bindRow], ?_⟩⟩
        rw [subst_bindRow_self, union_sdiff_of_subset sub]
        simp [Absorbs, EffectSet.subst]
      · obtain ⟨rfl, rfl⟩ := refuse_eq.mp run
        exact ⟨Subst.id, h.refl, rfl, by simp⟩
    | some f =>
      simp only at run
      split_ifs at run with eq same sub
      · obtain ⟨rfl, rfl⟩ := accept_eq.mp run
        exact ⟨Subst.id, h.refl, rfl, fun _ => by simp [Absorbs, eq, same]⟩
      · obtain ⟨rfl, rfl⟩ := refuse_eq.mp run
        exact ⟨Subst.id, h.refl, rfl, by simp⟩
      all_goals
        -- both are open: the left variable is bound either way, and the right row stays as it is
        obtain ⟨rfl, rfl⟩ := accept_eq.mp run
        have other : EffectSet.Vars (· ≠ .row e) ⟨cb, some f⟩ := by
          rintro g ⟨⟩
          simpa using Ne.symm eq
        have kept : EffectSet.subst (Subst.bindRow e ⟨cb \ ca, some f⟩) ⟨cb, some f⟩ = ⟨cb, some f⟩ :=
          Subst.bindRow_absent other
        refine ⟨_, h.bindRow (e := e) (r := ⟨cb \ ca, some f⟩) (freeA e rfl) freeB other rfl rfl
          (by simp [Unifier.bindRow]),
          rfl, fun _ => ⟨?_, ?_⟩⟩
        · simp [Absorbs, Unifier.bindRow, eq, sub]
        · rw [subst_bindRow_self, kept]
          simp [Absorbs, eq]

/-! ## The occurs check -/

theorem anyOf_false {test : Ty → Option Bool} {ts : List Ty} (run : anyOf test ts = some false) :
    ∀ t ∈ ts, test t = some false := by
  induction ts with
  | nil => simp
  | cons t rest ih =>
    simp only [anyOf, bind_eq_bind, bind_eq_some_iff] at run
    obtain ⟨_ | _, first, others⟩ := run
    · exact List.forall_mem_cons.mpr ⟨first, ih (by simpa using others)⟩
    · simp at others

/-- **A variable that the occurs check does not find is not in the type.** -/
theorem Solves.occurs (h : Solves u s) (run : u.occurs fuel v t = some false) : (t.subst s).Vars (· ≠ .ty v) := by
  induction fuel generalizing t with
  | zero => cases run
  | succ fuel ih =>
    simp only [Unifier.occurs, bind_eq_bind, bind_eq_some_iff] at run
    obtain ⟨t', read, run⟩ := run
    obtain rfl := h.resolve read
    -- the parts of what was read have only unbound variables, so they are read as they are
    have read := h.vars t
    revert run read
    generalize t.subst s = t
    intro run read
    have part : ∀ {t : Ty}, t.Vars u.Unbound → u.occurs fuel v t = some false → t.Vars (· ≠ .ty v) :=
      fun read run => h.fixed read ▸ ih run
    cases t with
    | var w => simpa [Ty.Vars, Ty.Everywhere, eq_comm] using run
    | prim | unit | never => trivial
    | list inner => exact ⟨trivial, part read.2 run⟩
    | tuple | con =>
      simp only [Ty.Vars, Ty.Everywhere, Ty.everywhereAll_iff] at read ⊢
      exact ⟨trivial, fun t mem => part (read.2 t mem) (anyOf_false run t mem)⟩
    | record fields =>
      simp only [Ty.Vars, Ty.Everywhere, Ty.everywhereFields_iff] at read ⊢
      have parts := List.forall_mem_map.mp (anyOf_false run)
      exact ⟨trivial, fun field mem => part (read.2 field mem) (parts field mem)⟩
    | function params effects ret =>
      simp only [bind_eq_some_iff] at run
      obtain ⟨_ | _, inParams, inRet⟩ := run
      · simp only [Ty.Vars, Ty.Everywhere, Ty.everywhereAll_iff] at read ⊢
        refine ⟨fun e _ => by simp, fun t mem => part (read.2.1 t mem) (anyOf_false inParams t mem), ?_⟩
        exact part read.2.2 inRet
      · simp at inRet

/-! ## Types -/

/-- **The variable is bound**: it stands for the type from then on, which stays as it is. -/
theorem Solved.bindVar (h : Solved u s) (unbound : u.Unbound (.ty v)) (read : t.Vars u.Unbound)
    (distinct : t.Distinct) :
    Meets (bindVar fuel u v t) u s fun k => k.ty v = t ∧ t.subst k = t ∧ ∀ w, k.ty w = t ∨ k.ty w = .var w := by
  intro r u' run
  simp only [Unifier.bindVar, bind_eq_bind, bind_eq_some_iff] at run
  obtain ⟨_ | _, test, run⟩ := run
  · obtain ⟨rfl, rfl⟩ := accept_eq.mp run
    have absent : t.Vars (· ≠ .ty v) := h.fixed read ▸ h.toSolves.occurs test
    obtain ⟨rank, ranked⟩ := h.ranked
    have range : ∀ w, (Subst.bindTy v t).ty w = t ∨ (Subst.bindTy v t).ty w = .var w := by
      intro w
      by_cases eq : w = v <;> simp [Subst.bindTy, Subst.id, eq]
    refine ⟨Subst.bindTy v t, ⟨⟨h.toSolves.bindTy unbound read absent distinct, _, ranked.bindTy unbound read absent⟩,
      Nat.le_refl _, fun w => ?_⟩, fun _ _ => ⟨by simp [Subst.bindTy], Subst.bindTy_absent absent, range⟩⟩
    rcases range w with eq | eq <;> rw [eq]
    · exact distinct
    · trivial
  · exact h.refuse _ r u' run

/-- Of types without the bottom type the refinement makes the same type, and it brings no bottom type in. -/
def Agree (s : Subst) (a b : Ty) (k : Subst) : Prop :=
  (a.subst s).NeverFree → (b.subst s).NeverFree →
    (∀ v, (k.ty v).NeverFree) ∧ Ty.same (a.subst (s.comp k)) (b.subst (s.comp k)) = true

def EachAgree (s : Subst) (xs ys : List Ty) (k : Subst) : Prop :=
  (∀ x ∈ xs, (x.subst s).NeverFree) → (∀ y ∈ ys, (y.subst s).NeverFree) →
    (∀ v, (k.ty v).NeverFree) ∧ Ty.sameAll (xs.map (Ty.subst (s.comp k))) (ys.map (Ty.subst (s.comp k))) = true

def FieldsAgree (s : Subst) (fs gs : List (String × Ty)) (k : Subst) : Prop :=
  (∀ f ∈ fs, (f.2.subst s).NeverFree) → (∀ g ∈ gs, (g.2.subst s).NeverFree) →
    (∀ v, (k.ty v).NeverFree) ∧
      Ty.sameFields (Ty.substFields (s.comp k) fs) (Ty.substFields (s.comp k) gs) = true

/-- The call for two parts does what `unify` is to do. -/
def Unifies (step : Unifier → Ty → Ty → Outcome) : Prop :=
  ∀ u s a b, Solved u s → a.Distinct → b.Distinct → Meets (step u a b) u s (Agree s a b)

variable {step : Unifier → Ty → Ty → Outcome}

theorem unifyEach_meets (unifies : Unifies step) (h : Solved u s) {xs ys : List Ty} (left : ∀ x ∈ xs, x.Distinct)
    (right : ∀ y ∈ ys, y.Distinct) (length : xs.length = ys.length) :
    Meets (unifyEach step u xs ys) u s (EachAgree s xs ys) := by
  induction xs generalizing u s ys with
  | nil =>
    obtain rfl := List.length_eq_zero_iff.mp length.symm
    exact h.accept fun _ _ => ⟨fun v => by simp [Subst.id, Ty.NeverFree, Ty.Everywhere], rfl⟩
  | cons x xs ih =>
    cases ys with
    | nil => cases length
    | cons y ys =>
      rw [List.forall_mem_cons] at left right
      refine Meets.andThen (unifies u s x y h left.1 right.1)
        (fun u₁ k solved => ih solved left.2 right.2 (Nat.succ.inj length)) fun k l distinct first rest => ?_
      intro leftFree rightFree
      rw [List.forall_mem_cons] at leftFree rightFree
      obtain ⟨free, same⟩ := first leftFree.1 rightFree.1
      obtain ⟨free', others⟩ := rest
        (fun x mem => Ty.subst_subst s k x ▸ Ty.neverFree_subst free (leftFree.2 x mem))
        (fun y mem => Ty.subst_subst s k y ▸ Ty.neverFree_subst free (rightFree.2 y mem))
      have kept := Ty.same_subst distinct same
      simp only [Ty.subst_subst, Subst.comp_comp] at kept others
      exact ⟨fun v => Ty.neverFree_subst free' (free v), by simp [Ty.sameAll, kept, others]⟩

theorem unifyFields_meets (unifies : Unifies step) (h : Solved u s) {fs gs : List (String × Ty)} {missing : UnifyError}
    (left : ∀ f ∈ fs, f.2.Distinct) (right : ∀ g ∈ gs, g.2.Distinct) :
    Meets (unifyFields step missing gs u fs) u s (FieldsAgree s fs gs) := by
  induction fs generalizing u s with
  | nil => exact h.accept fun _ _ => ⟨fun v => by simp [Subst.id, Ty.NeverFree, Ty.Everywhere], rfl⟩
  | cons field fs ih =>
    obtain ⟨name, t⟩ := field
    rw [List.forall_mem_cons] at left
    simp only [unifyFields]
    cases found : gs.lookup name with
    | none => exact h.refuse missing
    | some t' =>
      have mem := Ty.mem_of_lookup found
      refine Meets.andThen (unifies u s t t' h left.1 (right _ mem)) (fun u₁ k solved => ih solved left.2)
        fun k l distinct first rest => ?_
      intro leftFree rightFree
      rw [List.forall_mem_cons] at leftFree
      obtain ⟨free, same⟩ := first leftFree.1 (rightFree _ mem)
      obtain ⟨free', others⟩ := rest
        (fun f mem => Ty.subst_subst s k f.2 ▸ Ty.neverFree_subst free (leftFree.2 f mem))
        (fun g mem => Ty.subst_subst s k g.2 ▸ Ty.neverFree_subst free (rightFree g mem))
      have kept := Ty.same_subst distinct same
      simp only [Subst.comp_comp] at kept others
      refine ⟨fun v => Ty.neverFree_subst free' (free v), ?_⟩
      rw [Ty.substFields, Ty.sameFields, others, Ty.substFields_eq_map _ gs, Ty.lookup_subst, found]
      simpa using kept

/-- A variable and a type that were read: the variable is bound to the type. -/
theorem bindVar_agree (h : Solved u s) (unbound : u.Unbound (.ty v)) (read : t.Vars u.Unbound)
    (distinct : t.Distinct) (bound : k.ty v = t ∧ t.subst k = t ∧ ∀ w, k.ty w = t ∨ k.ty w = .var w) :
    Agree s (.var v) t k ∧ Agree s t (.var v) k := by
  obtain ⟨eq, fixed, range⟩ := bound
  have left : (Ty.var v).subst (s.comp k) = t := by
    rw [← Ty.subst_subst]
    simp only [Ty.subst, h.tyFree v unbound, eq]
  have right : t.subst (s.comp k) = t := by rw [← Ty.subst_subst, h.fixed read, fixed]
  have free : t.NeverFree → ∀ w, (k.ty w).NeverFree := by
    intro never w
    rcases range w with there | there <;> rw [there]
    · exact never
    · simp [Ty.NeverFree, Ty.Everywhere]
  simp only [Agree, left, right, h.fixed read]
  exact ⟨fun _ never => ⟨free never, Ty.same_refl distinct⟩, fun never _ => ⟨free never, Ty.same_refl distinct⟩⟩

theorem id_neverFree (v : Nat) : (Subst.id.ty v).NeverFree := by simp [Subst.id, Ty.NeverFree, Ty.Everywhere]

theorem unifyEffects_meets (h : Solved u s) {e f : EffectSet} :
    Meets (unifyEffects fuel u e f) u s fun k => k.ty = Ty.var ∧ e.subst (s.comp k) = f.subst (s.comp k) := by
  intro r u' run
  obtain ⟨k, refines, types, exact⟩ := h.unifyEffects run
  refine ⟨k, refines, fun ok same => ⟨types, ?_⟩⟩
  obtain ⟨deferred, equal⟩ := exact ok
  exact equal.mpr (deferred.mp same)

/-- The rows of two functions, then their results. -/
theorem unifyRest_meets (unifies : Unifies step) (h : Solved u s) {e f : EffectSet} {r : Ty}
    (left : r.Distinct) (right : t.Distinct) :
    Meets ((unifyEffects fuel u e f).andThen fun u => step u r t) u s fun k =>
      e.subst (s.comp k) = f.subst (s.comp k) ∧ Agree s r t k := by
  refine Meets.andThen (unifyEffects_meets h) (fun u₁ k solved => unifies u₁ _ r t solved left right)
    fun k l _ rows rets => ?_
  obtain ⟨types, rows⟩ := rows
  have kept := congrArg (EffectSet.subst l) rows
  simp only [EffectSet.subst_subst, Subst.comp_comp] at kept
  refine ⟨kept, fun leftFree rightFree => ?_⟩
  -- the rows bind no type variable
  have range : ∀ v, (k.ty v).NeverFree := fun v => by simp [types, Ty.NeverFree, Ty.Everywhere]
  obtain ⟨free, same⟩ := rets (Ty.subst_subst s k r ▸ Ty.neverFree_subst range leftFree)
    (Ty.subst_subst s k t ▸ Ty.neverFree_subst range rightFree)
  refine ⟨fun v => ?_, by simpa using same⟩
  simpa [Subst.comp, types, Ty.subst] using free v

/-- The parameters of two functions, then the rest. -/
theorem unifyFunction_meets (unifies : Unifies step) (h : Solved u s) {ps qs : List Ty}
    {e f : EffectSet} {r : Ty} (left : ∀ p ∈ ps, p.Distinct) (right : ∀ q ∈ qs, q.Distinct) (leftRet : r.Distinct)
    (rightRet : t.Distinct) (length : ps.length = qs.length) :
    Meets ((unifyEach step u ps qs).andThen fun u => (unifyEffects fuel u e f).andThen fun u => step u r t) u s
      (Agree s (.function ps e r) (.function qs f t)) := by
  refine Meets.andThen (unifyEach_meets unifies h left right length)
    (fun u₁ k solved => unifyRest_meets unifies solved leftRet rightRet) fun k l distinct params rest => ?_
  intro leftFree rightFree
  simp only [Ty.NeverFree, Ty.subst, Ty.substAll_eq_map, Ty.Everywhere, Ty.everywhereAll_iff,
    List.forall_mem_map] at leftFree rightFree
  obtain ⟨free, same⟩ := params leftFree.2.1 rightFree.2.1
  obtain ⟨rows, rets⟩ := rest
  obtain ⟨free', sameRet⟩ := rets (Ty.subst_subst s k r ▸ Ty.neverFree_subst free leftFree.2.2)
    (Ty.subst_subst s k t ▸ Ty.neverFree_subst free rightFree.2.2)
  -- the parameters stay the same in what the rest binds, as the items of a tuple do
  have kept := Ty.same_subst distinct (t := .tuple _) (u := .tuple _) same
  simp only [Ty.subst, Ty.same, Ty.substAll_eq_map, List.map_map, comp_def, Ty.subst_subst,
    Subst.comp_comp] at kept rows sameRet
  exact ⟨fun v => Ty.neverFree_subst free' (free v), by simp [Ty.subst, Ty.same, kept, rows, sameRet]⟩

/-- Two types that were read. -/
theorem unifyHeads_meets (unifies : Unifies step) (h : Solved u s) {a b : Ty} (readA : a.Vars u.Unbound)
    (readB : b.Vars u.Unbound) (left : a.Distinct) (right : b.Distinct) :
    Meets (unifyHeads step fuel u a b) u s (Agree s a b) := by
  unfold unifyHeads
  split
  · rename_i v w
    split_ifs with eq
    · subst eq
      refine h.accept fun _ _ => ⟨id_neverFree, ?_⟩
      exact Ty.same_refl (Ty.distinct_subst (by simpa using h.distinct) left)
    · exact (h.bindVar readA readB right).mono fun k _ bound => (bindVar_agree h readA readB right bound).1
  · exact (h.bindVar readA readB right).mono fun k _ bound => (bindVar_agree h readA readB right bound).1
  · exact (h.bindVar readB readA left).mono fun k _ bound => (bindVar_agree h readB readA left bound).2
  · rename_i p q
    split_ifs with eq
    · exact h.accept fun _ _ => ⟨id_neverFree, by simp [Ty.subst, Ty.same, eq]⟩
    · exact h.refuse _
  · exact h.accept fun _ _ => ⟨id_neverFree, rfl⟩
  -- the bottom type is no part of either side
  · exact h.accept fun never => absurd rfl never.here
  · exact h.accept fun _ never => absurd rfl never.here
  · refine (unifies _ _ _ _ h left.2 right.2).mono fun k _ agree leftFree rightFree => ?_
    exact agree leftFree.2 rightFree.2
  · rename_i xs ys
    simp only [Ty.Distinct, Ty.Everywhere, Ty.everywhereAll_iff] at left right
    split_ifs with length
    · refine (unifyEach_meets unifies h left.2 right.2 length).mono fun k _ agree leftFree rightFree => ?_
      simp only [Ty.NeverFree, Ty.subst, Ty.substAll_eq_map, Ty.Everywhere, Ty.everywhereAll_iff,
        List.forall_mem_map] at leftFree rightFree
      simpa [Ty.subst, Ty.same] using agree leftFree.2 rightFree.2
    · exact h.refuse _
  · rename_i fs gs
    simp only [Ty.Distinct, Ty.Everywhere, Ty.everywhereFields_iff] at left right
    split_ifs with length
    · refine (unifyFields_meets unifies h left.2 right.2).mono fun k _ agree leftFree rightFree => ?_
      simp only [Ty.NeverFree, Ty.subst, Ty.substFields_eq_map, Ty.Everywhere, Ty.everywhereFields_iff,
        List.forall_mem_map] at leftFree rightFree
      simpa [Ty.subst, Ty.same, length] using agree leftFree.2 rightFree.2
    · exact h.refuse _
  · rename_i n xs m ys
    simp only [Ty.Distinct, Ty.Everywhere, Ty.everywhereAll_iff] at left right
    split_ifs with eq
    · refine (unifyEach_meets unifies h left.2 right.2 eq.2).mono fun k _ agree leftFree rightFree => ?_
      simp only [Ty.NeverFree, Ty.subst, Ty.substAll_eq_map, Ty.Everywhere, Ty.everywhereAll_iff,
        List.forall_mem_map] at leftFree rightFree
      simpa [Ty.subst, Ty.same, eq.1] using agree leftFree.2 rightFree.2
    · exact h.refuse _
  · rename_i ps e r qs f ret
    simp only [Ty.Distinct, Ty.Everywhere, Ty.everywhereAll_iff] at left right
    split_ifs with length
    · exact unifyFunction_meets unifies h left.2.1 right.2.1 left.2.2 right.2.2 length
    · exact h.refuse _
  · exact h.refuse _

/-- **Unification refines the solution**, and where it succeeds it makes the two types the same. -/
theorem unify_meets (fuel : Nat) : Unifies (unify fuel) := by
  induction fuel with
  | zero => exact fun u s a b h left right r u' run => nomatch run
  | succ fuel ih =>
    intro u s a b h left right r u' run
    simp only [unify, bind_eq_bind, bind_eq_some_iff] at run
    obtain ⟨a', readA, b', readB, run⟩ := run
    obtain rfl := h.toSolves.resolve readA
    obtain rfl := h.toSolves.resolve readB
    have met : Meets (unifyHeads (unify fuel) fuel u (a.subst s) (b.subst s)) u s (Agree s _ _) :=
      unifyHeads_meets ih h (h.vars a) (h.vars b) (Ty.distinct_subst h.distinct left)
        (Ty.distinct_subst h.distinct right)
    refine Meets.mono met (fun k _ agree => ?_) r u' run
    -- what was read is read as it is
    simpa only [Agree, h.fixed (h.vars a), h.fixed (h.vars b), ← Ty.subst_subst] using agree

/-! ## Runs -/

/-- The states of a unifier: variables are handed out, and types and rows are unified, whether that succeeds or not. -/
inductive Reachable : Unifier → Prop
  | new : Reachable .new
  | fresh {u : Unifier} : Reachable u → Reachable u.fresh.2
  | freshId {u : Unifier} : Reachable u → Reachable u.freshId.2
  | freshEffId {u : Unifier} : Reachable u → Reachable u.freshEffId.2
  | unify {u u' : Unifier} {a b : Ty} {fuel : Nat} {r : Except UnifyError Unit} : Reachable u → a.Distinct →
      b.Distinct → unify fuel u a b = some (r, u') → Reachable u'
  | unifyEffects {u u' : Unifier} {a b : EffectSet} {fuel : Nat} {r : Except UnifyError Unit} : Reachable u →
      unifyEffects fuel u a b = some (r, u') → Reachable u'

theorem new_solved : Solved new Subst.id where
  ty _ _ bound := nomatch bound
  tyFree _ _ := rfl
  row _ _ bound := nomatch bound
  rowFree _ _ := rfl
  unboundTy _ := rfl
  unboundRow _ _ _ := rfl
  distinct _ := trivial
  ranked := ⟨fun _ => 0, ⟨fun _ _ bound => (nomatch bound), fun _ _ bound => nomatch bound⟩⟩

theorem Reachable.solved (h : Reachable u) : ∃ s, Solved u s := by
  induction h with
  | new => exact ⟨Subst.id, new_solved⟩
  | fresh _ ih | freshId _ ih | freshEffId _ ih => exact ih.imp fun s solved => solved.relabel rfl rfl
  | unify _ left right run ih =>
    obtain ⟨s, solved⟩ := ih
    obtain ⟨k, refines, -⟩ := unify_meets _ _ s _ _ solved left right _ _ run
    exact ⟨_, refines.solved⟩
  | unifyEffects _ run ih =>
    obtain ⟨s, solved⟩ := ih
    obtain ⟨k, refines, -⟩ := solved.unifyEffects run
    exact ⟨_, refines.solved⟩

/-- **A unifier stays acyclic**, so every type and every row can be read, after any calls. Types that a successful call
unified without the deferred case are read as the same type; rows that a successful call unified are read as equal rows
exactly when the right one absorbed the left one. -/
theorem unify_sound (h : Reachable u) :
    u.Acyclic ∧ (∀ t, ∃ fuel, (u.resolve fuel t).isSome) ∧ (∀ row, ∃ fuel, (u.resolveEffects fuel row).isSome) ∧
    (∀ fuel a b u', a.Distinct → b.Distinct → unify fuel u a b = some (.ok (), u') → u'.deferred = u.deferred →
      (∀ n t, u.resolve n a = some t → t.NeverFree) → (∀ n t, u.resolve n b = some t → t.NeverFree) →
      ∀ n m t t', u'.resolve n a = some t → u'.resolve m b = some t' → Ty.same t t' = true) ∧
    (∀ fuel a b u', unifyEffects fuel u a b = some (.ok (), u') →
      ∀ i j n m a' b' r r', u.resolveEffects i a = some a' → u.resolveEffects j b = some b' →
        u'.resolveEffects n a = some r → u'.resolveEffects m b = some r' → (r = r' ↔ Absorbs a' b')) := by
  obtain ⟨s, solved⟩ := h.solved
  obtain ⟨rank, ranked⟩ := solved.ranked
  refine ⟨ranked.acyclic, ranked.resolve_terminates, ranked.resolveEffects_terminates, ?_, ?_⟩
  · intro fuel a b u' left right run same freeA freeB n m t t' readA readB
    obtain ⟨k, refines, agree⟩ := unify_meets fuel u s a b solved left right _ _ run
    obtain ⟨i, foundA⟩ := ranked.resolve_terminates a
    obtain ⟨j, foundB⟩ := ranked.resolve_terminates b
    obtain ⟨a', readA'⟩ := isSome_iff_exists.mp foundA
    obtain ⟨b', readB'⟩ := isSome_iff_exists.mp foundB
    have neverA := freeA i a' readA'
    have neverB := freeB j b' readB'
    rw [solved.toSolves.resolve readA'] at neverA
    rw [solved.toSolves.resolve readB'] at neverB
    rw [refines.solved.toSolves.resolve readA, refines.solved.toSolves.resolve readB]
    exact (agree rfl same neverA neverB).2
  · intro fuel a b u' run i j n m a' b' r r' readA readB laterA laterB
    obtain ⟨k, refines, -, exact⟩ := solved.unifyEffects run
    rw [solved.toSolves.resolveEffects readA, solved.toSolves.resolveEffects readB,
      refines.solved.toSolves.resolveEffects laterA, refines.solved.toSolves.resolveEffects laterB]
    exact (exact rfl).2

/-- A list of an unknown type is unified with a list of integers, after a first variable was handed out. -/
theorem unify_sound_example : ∃ u', unify 4 Unifier.new.fresh.2 (.list (.var 0)) (.list (.prim .int)) = some (.ok (), u') ∧
    u'.Acyclic ∧ ∀ n m t t', u'.resolve n (.list (.var 0)) = some t → u'.resolve m (.list (.prim .int)) = some t' →
      Ty.same t t' = true := by
  have run : unify 4 Unifier.new.fresh.2 (.list (.var 0)) (.list (.prim .int)) =
      some (.ok (), Unifier.new.fresh.2.bindTy 0 (.prim .int)) := rfl
  have start : Reachable Unifier.new.fresh.2 := .fresh .new
  have distinct : ∀ t : Ty, (t = .var 0 ∨ t = .prim .int) → (Ty.list t).Distinct := by
    rintro t (rfl | rfl) <;> simp [Ty.Distinct, Ty.Everywhere]
  refine ⟨_, run, (unify_sound (.unify start (distinct _ (.inl rfl)) (distinct _ (.inr rfl)) run)).1, ?_⟩
  refine (unify_sound start).2.2.2.1 4 _ _ _ (distinct _ (.inl rfl)) (distinct _ (.inr rfl)) run rfl ?_ ?_
  · rintro (_ | _ | n) t read <;> cases read
    all_goals simp [Ty.NeverFree, Ty.Everywhere]
  · rintro (_ | n) t read <;> cases read
    simp [Ty.NeverFree, Ty.Everywhere]

/-- An open row with `io` and another open row with `net` are unified: the one is then read with both effects, the other
with `net` alone. -/
theorem unify_sound_fails : ¬ ∀ u, Reachable u → ∀ fuel a b u', unifyEffects fuel u a b = some (.ok (), u') →
    ∀ n m r r', u'.resolveEffects n a = some r → u'.resolveEffects m b = some r' → r = r' := by
  intro sound
  let a : EffectSet := ⟨{EffectKind.bare "io"}, some 0⟩
  let b : EffectSet := ⟨{EffectKind.bare "net"}, some 1⟩
  let u := Unifier.new.freshEffId.2.freshEffId.2
  have start : Reachable u := .freshEffId (.freshEffId .new)
  have missing : ¬ a.concrete ⊆ b.concrete := by decide
  have run : unifyEffects 1 u a b =
      some (.ok (), { u.bindRow 0 ⟨b.concrete \ a.concrete, some 1⟩ with deferred := 1 }) := by
    simp [Unifier.unifyEffects, Unifier.resolveEffects, Unifier.followRow, u, freshEffId, new, a, b,
      EffectKind.bare, accept]
  have equal := sound u start 1 a b _ run 2 2 ⟨a.concrete ∪ (b.concrete \ a.concrete), some 1⟩ b rfl rfl
  have concretes : a.concrete ∪ (b.concrete \ a.concrete) = b.concrete := congrArg EffectSet.concrete equal
  exact missing (concretes ▸ subset_union_left)

end Unifier

end LexLang.Types
