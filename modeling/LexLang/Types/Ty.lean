/-
# LexLang.Types.Ty — the types of the checker

`Ty` (`lex-types/src/types.rs`), and the calculus of substitutions that the unifier is measured by: a substitution
gives every type variable a type and every row variable a row. A record lists its fields in the order of its map;
two records are the same whatever their order.
-/
import LexLang.Types.Effect

namespace LexLang.Types

open Bool List Option

inductive Prim
  | int
  | float
  | bool
  | str
  | bytes
  deriving DecidableEq

inductive Ty
  | var (v : Nat)
  | prim (p : Prim)
  | unit
  | never
  | list (inner : Ty)
  | tuple (items : List Ty)
  | record (fields : List (String × Ty))
  | con (name : String) (args : List Ty)
  | function (params : List Ty) (effects : EffectSet) (ret : Ty)

/-- A type for every type variable and a row for every row variable. -/
structure Subst where
  ty : Nat → Ty
  row : Nat → EffectSet

/-- The row variable of an open set gives way to its row. -/
def EffectSet.subst (s : Subst) (row : EffectSet) : EffectSet :=
  match row.var with
  | none => row
  | some e => ⟨row.concrete ∪ (s.row e).concrete, (s.row e).var⟩

variable {s : Subst} {t : Ty}

variable {s' : Subst}

namespace Ty

/-! ## Functions over every part of a type -/

mutual

def subst (s : Subst) : Ty → Ty
  | var v => s.ty v
  | prim p => prim p
  | unit => unit
  | never => never
  | list inner => list (inner.subst s)
  | tuple items => tuple (substAll s items)
  | record fields => record (substFields s fields)
  | con name args => con name (substAll s args)
  | function params effects ret => function (substAll s params) (effects.subst s) (ret.subst s)

def substAll (s : Subst) : List Ty → List Ty
  | [] => []
  | t :: rest => t.subst s :: substAll s rest

def substFields (s : Subst) : List (String × Ty) → List (String × Ty)
  | [] => []
  | (name, t) :: rest => (name, t.subst s) :: substFields s rest

end

attribute [local simp] subst substAll substFields

mutual

/-- Every variable and every row is replaced, as long as each has a replacement. -/
def traverse (f : Nat → Option Ty) (g : EffectSet → Option EffectSet) : Ty → Option Ty
  | var v => f v
  | prim p => some (prim p)
  | unit => some unit
  | never => some never
  | list inner => (inner.traverse f g).map list
  | tuple items => (traverseAll f g items).map tuple
  | record fields => (traverseFields f g fields).map record
  | con name args => (traverseAll f g args).map (con name)
  | function params effects ret => do
    let params ← traverseAll f g params
    let effects ← g effects
    let ret ← ret.traverse f g
    some (function params effects ret)

def traverseAll (f : Nat → Option Ty) (g : EffectSet → Option EffectSet) : List Ty → Option (List Ty)
  | [] => some []
  | t :: rest => do
    let t ← t.traverse f g
    let rest ← traverseAll f g rest
    some (t :: rest)

def traverseFields (f : Nat → Option Ty) (g : EffectSet → Option EffectSet) :
    List (String × Ty) → Option (List (String × Ty))
  | [] => some []
  | (name, t) :: rest => do
    let t ← t.traverse f g
    let rest ← traverseFields f g rest
    some ((name, t) :: rest)

end

attribute [local simp] traverse traverseAll traverseFields

mutual

/-- The predicate holds of the type and of every part of it. -/
def Everywhere (p : Ty → Prop) : Ty → Prop
  | list inner => p (list inner) ∧ inner.Everywhere p
  | tuple items => p (tuple items) ∧ EverywhereAll p items
  | record fields => p (record fields) ∧ EverywhereFields p fields
  | con name args => p (con name args) ∧ EverywhereAll p args
  | function params effects ret =>
    p (function params effects ret) ∧ EverywhereAll p params ∧ ret.Everywhere p
  | t => p t

def EverywhereAll (p : Ty → Prop) : List Ty → Prop
  | [] => True
  | t :: rest => t.Everywhere p ∧ EverywhereAll p rest

def EverywhereFields (p : Ty → Prop) : List (String × Ty) → Prop
  | [] => True
  | (_, t) :: rest => t.Everywhere p ∧ EverywhereFields p rest

end

attribute [local simp] Everywhere EverywhereAll EverywhereFields

mutual

/-- The derived equality: records are compared by the names of their fields. -/
def same : Ty → Ty → Bool
  | var v, var w => v = w
  | prim p, prim q => p = q
  | unit, unit => true
  | never, never => true
  | list t, list u => same t u
  | tuple ts, tuple us => sameAll ts us
  | record fs, record gs => fs.length = gs.length && sameFields fs gs
  | con n ts, con m us => n = m && sameAll ts us
  | function ps e r, function qs f q => sameAll ps qs && (e = f && same r q)
  | _, _ => false

def sameAll : List Ty → List Ty → Bool
  | [], [] => true
  | t :: ts, u :: us => same t u && sameAll ts us
  | _, _ => false

def sameFields : List (String × Ty) → List (String × Ty) → Bool
  | [], _ => true
  | (name, t) :: rest, other =>
    (match other.lookup name with
      | some u => same t u
      | none => false) && sameFields rest other

end

attribute [local simp] same sameAll sameFields

/-! ## Induction over the parts -/

/-- What holds of a type when it holds of its parts holds of every type. -/
@[elab_as_elim]
theorem byParts {motive : Ty → Prop} (var : ∀ v, motive (var v)) (prim : ∀ p, motive (prim p))
    (unit : motive unit) (never : motive never) (list : ∀ inner, motive inner → motive (list inner))
    (tuple : ∀ items, (∀ t ∈ items, motive t) → motive (tuple items))
    (record : ∀ fields, (∀ field ∈ fields, motive field.2) → motive (record fields))
    (con : ∀ name args, (∀ t ∈ args, motive t) → motive (con name args))
    (function : ∀ params effects ret, (∀ t ∈ params, motive t) → motive ret →
      motive (function params effects ret)) (t : Ty) : motive t := by
  refine @Ty.rec motive (fun ts => ∀ t ∈ ts, motive t) (fun fields => ∀ field ∈ fields, motive field.2)
    (fun field => motive field.2) var prim unit never list tuple record con function ?_ ?_ ?_ ?_ ?_ t
  · exact List.forall_mem_nil _
  · exact fun _ _ hhead hrest => List.forall_mem_cons.mpr ⟨hhead, hrest⟩
  · exact List.forall_mem_nil _
  · exact fun _ _ hhead hrest => List.forall_mem_cons.mpr ⟨hhead, hrest⟩
  · exact fun _ _ h => h

@[simp] theorem substAll_eq_map (s : Subst) (ts : List Ty) : substAll s ts = ts.map (subst s) := by
  induction ts with
  | nil => rfl
  | cons t rest ih => simp [substAll, ih]

@[simp] theorem substFields_eq_map (s : Subst) (fields : List (String × Ty)) :
    substFields s fields = fields.map (fun field => (field.1, field.2.subst s)) := by
  induction fields with
  | nil => rfl
  | cons field rest ih => simp [substFields, ih]

variable {p : Ty → Prop}

@[simp] theorem everywhereAll_iff {ts : List Ty} : EverywhereAll p ts ↔ ∀ t ∈ ts, t.Everywhere p := by
  induction ts with
  | nil => simp [EverywhereAll]
  | cons t rest ih => simp [EverywhereAll, ih]

@[simp] theorem everywhereFields_iff {fields : List (String × Ty)} :
    EverywhereFields p fields ↔ ∀ field ∈ fields, field.2.Everywhere p := by
  induction fields with
  | nil => simp [EverywhereFields]
  | cons field rest ih => simp [EverywhereFields, ih]

theorem Everywhere.here (h : t.Everywhere p) : p t := by
  cases t <;> simp only [Everywhere] at h <;> first | exact h | exact h.1

theorem Everywhere.mono {p q : Ty → Prop} (imp : ∀ t, p t → q t) : t.Everywhere p → t.Everywhere q := by
  induction t using byParts with
  | var v => exact imp _
  | prim p => exact imp _
  | unit => exact imp _
  | never => exact imp _
  | list inner ih => exact fun h => ⟨imp _ h.1, ih h.2⟩
  | tuple items ih | con name args ih =>
    simp only [Everywhere, everywhereAll_iff]
    exact fun h => ⟨imp _ h.1, fun t mem => ih t mem (h.2 t mem)⟩
  | record fields ih =>
    simp only [Everywhere, everywhereFields_iff]
    exact fun h => ⟨imp _ h.1, fun field mem => ih field mem (h.2 field mem)⟩
  | function params effects ret ihParams ihRet =>
    simp only [Everywhere, everywhereAll_iff]
    exact fun h => ⟨imp _ h.1, fun t mem => ihParams t mem (h.2.1 t mem), ihRet h.2.2⟩

theorem everywhere_of_forall (all : ∀ t, p t) (t : Ty) : t.Everywhere p := by
  induction t using byParts with
  | var | prim | unit | never => exact all _
  | list inner ih => exact ⟨all _, ih⟩
  | tuple items ih => exact ⟨all _, everywhereAll_iff.mpr ih⟩
  | record fields ih => exact ⟨all _, everywhereFields_iff.mpr ih⟩
  | con name args ih => exact ⟨all _, everywhereAll_iff.mpr ih⟩
  | function params effects ret ihParams ihRet => exact ⟨all _, everywhereAll_iff.mpr ihParams, ihRet⟩

/-! ## Substitution -/

theorem everywhere_subst {p q : Ty → Prop} (atVar : ∀ v, p (var v) → (s.ty v).Everywhere q)
    (atPart : ∀ t, (∀ v, t ≠ var v) → p t → q (t.subst s)) : t.Everywhere p → (t.subst s).Everywhere q := by
  induction t using byParts with
  | var v => exact fun h => atVar v h
  | prim x => exact fun h => atPart (prim x) (by simp) h
  | unit => exact fun h => atPart unit (by simp) h
  | never => exact fun h => atPart never (by simp) h
  | list inner ih => exact fun h => ⟨atPart (list inner) (by simp) h.1, ih h.2⟩
  | tuple items ih =>
    simp only [Everywhere, everywhereAll_iff, subst, substAll_eq_map, List.forall_mem_map]
    intro h
    have here := atPart (tuple items) (by simp) h.1
    simp only [subst, substAll_eq_map] at here
    exact ⟨here, fun t mem => ih t mem (h.2 t mem)⟩
  | record fields ih =>
    simp only [Everywhere, everywhereFields_iff, subst, substFields_eq_map, List.forall_mem_map]
    intro h
    have here := atPart (record fields) (by simp) h.1
    simp only [subst, substFields_eq_map] at here
    exact ⟨here, fun field mem => ih field mem (h.2 field mem)⟩
  | con name args ih =>
    simp only [Everywhere, everywhereAll_iff, subst, substAll_eq_map, List.forall_mem_map]
    intro h
    have here := atPart (con name args) (by simp) h.1
    simp only [subst, substAll_eq_map] at here
    exact ⟨here, fun t mem => ih t mem (h.2 t mem)⟩
  | function params effects ret ihParams ihRet =>
    simp only [Everywhere, everywhereAll_iff, subst, substAll_eq_map, List.forall_mem_map]
    intro h
    have here := atPart (function params effects ret) (by simp) h.1
    simp only [subst, substAll_eq_map] at here
    exact ⟨here, fun t mem => ihParams t mem (h.2.1 t mem), ihRet h.2.2⟩

theorem subst_congr (agree : t.Everywhere fun
    | var v => s.ty v = s'.ty v
    | function _ effects _ => effects.subst s = effects.subst s'
    | _ => True) : t.subst s = t.subst s' := by
  induction t using byParts with
  | var v => exact agree
  | prim | unit | never => rfl
  | list inner ih => simp only [subst, ih agree.2]
  | tuple items ih =>
    simp only [Everywhere, everywhereAll_iff] at agree
    simp only [subst, substAll_eq_map, tuple.injEq, map_inj_left]
    exact fun t mem => ih t mem (agree.2 t mem)
  | record fields ih =>
    simp only [Everywhere, everywhereFields_iff] at agree
    simp only [subst, substFields_eq_map, record.injEq, map_inj_left]
    exact fun field mem => by rw [ih field mem (agree.2 field mem)]
  | con name args ih =>
    simp only [Everywhere, everywhereAll_iff] at agree
    simp only [subst, substAll_eq_map, con.injEq, map_inj_left]
    exact ⟨trivial, fun t mem => ih t mem (agree.2 t mem)⟩
  | function params effects ret ihParams ihRet =>
    simp only [Everywhere, everywhereAll_iff] at agree
    simp only [subst, substAll_eq_map, function.injEq, map_inj_left]
    exact ⟨fun t mem => ihParams t mem (agree.2.1 t mem), agree.1, ihRet agree.2.2⟩

end Ty

namespace Subst

/-- Every variable stands for itself. -/
def id : Subst := ⟨Ty.var, fun e => ⟨∅, some e⟩⟩

/-- First the one, then the other. -/
def comp (s k : Subst) : Subst := ⟨fun v => (s.ty v).subst k, fun e => (s.row e).subst k⟩

/-- One type variable is replaced. -/
def bindTy (v : Nat) (t : Ty) : Subst := ⟨Function.update id.ty v t, id.row⟩

/-- One row variable is replaced. -/
def bindRow (e : Nat) (row : EffectSet) : Subst := ⟨id.ty, Function.update id.row e row⟩

end Subst

@[simp] theorem EffectSet.subst_id (row : EffectSet) : row.subst Subst.id = row := by
  obtain ⟨concrete, _ | e⟩ := row <;> simp [EffectSet.subst, Subst.id]

@[simp] theorem EffectSet.subst_subst (s k : Subst) (row : EffectSet) :
    (row.subst s).subst k = row.subst (s.comp k) := by
  obtain ⟨concrete, _ | e⟩ := row
  · rfl
  · simp only [EffectSet.subst, Subst.comp]
    cases found : (s.row e).var <;> simp [Finset.union_assoc, found]

namespace Ty

@[simp] theorem subst_id (t : Ty) : t.subst Subst.id = t := by
  induction t using byParts with
  | var | prim | unit | never => rfl
  | list inner ih => simp only [subst, ih]
  | tuple items ih => simp [subst, map_congr_left ih]
  | record fields ih =>
    have fixed : ∀ field ∈ fields, (field.1, field.2.subst Subst.id) = field := by
      intro field mem
      rw [ih field mem]
    simp [subst, map_congr_left fixed]
  | con name args ih => simp [subst, map_congr_left ih]
  | function params effects ret ihParams ihRet => simp [subst, map_congr_left ihParams, ihRet]

@[simp] theorem subst_subst (s k : Subst) (t : Ty) : (t.subst s).subst k = t.subst (s.comp k) := by
  induction t using byParts with
  | var | prim | unit | never => rfl
  | list inner ih => simp only [subst, ih]
  | tuple items ih | record fields ih | con name args ih => simpa [subst] using ih
  | function params effects ret ihParams ihRet => simpa [subst] using ⟨ihParams, ihRet⟩

end Ty

/-! ## Variables -/

inductive Variable
  | ty (v : Nat)
  | row (e : Nat)
  deriving DecidableEq

/-- The variable of the row, if there is one, passes. -/
def EffectSet.Vars (p : Variable → Prop) (row : EffectSet) : Prop := ∀ e, row.var = some e → p (.row e)

/-- Every variable of the type passes. -/
def Ty.Vars (p : Variable → Prop) (t : Ty) : Prop := t.Everywhere fun
  | .var v => p (.ty v)
  | .function _ effects _ => effects.Vars p
  | _ => True

variable {p q : Variable → Prop}

theorem EffectSet.vars_subst (rows : ∀ e, p (.row e) → (s.row e).Vars q)
    {row : EffectSet} (h : row.Vars p) : (row.subst s).Vars q := by
  obtain ⟨concrete, _ | e⟩ := row
  · intro e found
    cases found
  · intro w found
    exact rows e (h e rfl) w found

theorem EffectSet.subst_congr (rows : ∀ e, p (.row e) → s.row e = s'.row e)
    {row : EffectSet} (h : row.Vars p) : row.subst s = row.subst s' := by
  obtain ⟨concrete, _ | e⟩ := row
  · rfl
  · simp only [EffectSet.subst, rows e (h e rfl)]

namespace Ty

theorem Vars.mono (imp : ∀ x, p x → q x) (h : t.Vars p) : t.Vars q := by
  refine Everywhere.mono (fun part here => ?_) h
  cases part with
  | var v => exact imp _ here
  | function params effects ret => exact fun e found => imp _ (here e found)
  | _ => trivial

theorem vars_of_forall (all : ∀ x, p x) (t : Ty) : t.Vars p := by
  refine everywhere_of_forall (fun part => ?_) t
  cases part with
  | var v => exact all _
  | function params effects ret => exact fun e _ => all _
  | _ => trivial

theorem Vars.and (hp : t.Vars p) (hq : t.Vars q) : t.Vars fun x => p x ∧ q x := by
  induction t using byParts with
  | var v => exact ⟨hp, hq⟩
  | prim | unit | never => trivial
  | list inner ih => exact ⟨trivial, ih hp.2 hq.2⟩
  | tuple items ih | con name args ih =>
    simp only [Vars, Everywhere, everywhereAll_iff] at hp hq ⊢
    exact ⟨trivial, fun t mem => ih t mem (hp.2 t mem) (hq.2 t mem)⟩
  | record fields ih =>
    simp only [Vars, Everywhere, everywhereFields_iff] at hp hq ⊢
    exact ⟨trivial, fun field mem => ih field mem (hp.2 field mem) (hq.2 field mem)⟩
  | function params effects ret ihParams ihRet =>
    simp only [Vars, Everywhere, everywhereAll_iff] at hp hq ⊢
    exact ⟨fun e found => ⟨hp.1 e found, hq.1 e found⟩,
      fun t mem => ihParams t mem (hp.2.1 t mem) (hq.2.1 t mem), ihRet hp.2.2 hq.2.2⟩

theorem vars_subst (vars : ∀ v, p (.ty v) → (s.ty v).Vars q)
    (rows : ∀ e, p (.row e) → (s.row e).Vars q) (h : t.Vars p) : (t.subst s).Vars q := by
  refine everywhere_subst (fun v here => vars v here) (fun part notVar here => ?_) h
  cases part with
  | var v => exact absurd rfl (notVar v)
  | function params effects ret => exact EffectSet.vars_subst rows here
  | _ => trivial

theorem subst_congr_vars (vars : ∀ v, p (.ty v) → s.ty v = s'.ty v)
    (rows : ∀ e, p (.row e) → s.row e = s'.row e) (h : t.Vars p) : t.subst s = t.subst s' := by
  refine subst_congr (Everywhere.mono (fun part here => ?_) h)
  cases part with
  | var v => exact vars v here
  | function params effects ret => exact EffectSet.subst_congr rows here
  | _ => trivial

theorem vars_bounded (rank : Variable → Nat) (t : Ty) : ∃ n, t.Vars fun x => rank x < n := by
  have enlarge : ∀ {t : Ty} {n m : Nat}, n ≤ m → t.Vars (fun x => rank x < n) → t.Vars fun x => rank x < m :=
    fun le h => h.mono fun x lt => by omega
  have all : ∀ ts : List Ty, (∀ t ∈ ts, ∃ n, t.Vars fun x => rank x < n) →
      ∃ n, ∀ t ∈ ts, t.Vars fun x => rank x < n := by
    intro ts bounded
    induction ts with
    | nil => exact ⟨0, by simp⟩
    | cons t rest ih =>
      simp only [forall_mem_cons] at bounded
      obtain ⟨n, first⟩ := bounded.1
      obtain ⟨m, others⟩ := ih bounded.2
      refine ⟨max n m, forall_mem_cons.mpr ⟨enlarge (by omega) first, fun t mem => ?_⟩⟩
      exact enlarge (by omega) (others t mem)
  induction t using byParts with
  | var v => exact ⟨rank (.ty v) + 1, Nat.lt_succ_self _⟩
  | prim | unit | never => exact ⟨0, trivial⟩
  | list inner ih => exact ih.imp fun n h => ⟨trivial, h⟩
  | tuple items ih =>
    refine (all items ih).imp fun n h => ?_
    simpa [Vars, Everywhere] using h
  | record fields ih =>
    refine (all (fields.map Prod.snd) (List.forall_mem_map.mpr ih)).imp fun n h => ?_
    simp only [Vars, Everywhere, everywhereFields_iff]
    exact ⟨trivial, List.forall_mem_map.mp h⟩
  | con name args ih =>
    refine (all args ih).imp fun n h => ?_
    simpa [Vars, Everywhere] using h
  | function params effects ret ihParams ihRet =>
    obtain ⟨n, hn⟩ := all params ihParams
    obtain ⟨m, hm⟩ := ihRet
    obtain ⟨k, hk⟩ : ∃ k, effects.Vars fun x => rank x < k := by
      cases found : effects.var with
      | none => exact ⟨0, by simp [EffectSet.Vars, found]⟩
      | some e => exact ⟨rank (.row e) + 1, by simp [EffectSet.Vars, found]⟩
    refine ⟨max n (max m k), ?_⟩
    simp only [Vars, Everywhere, everywhereAll_iff]
    refine ⟨fun e found => ?_, fun t mem => enlarge (by omega) (hn t mem), enlarge (by omega) hm⟩
    have below := hk e found
    omega

/-! ## Traversal -/

variable {g : EffectSet → Option EffectSet}

/-- A traversal whose replacements are those of a substitution is the substitution. -/
theorem traverse_sound {f : Nat → Option Ty}
    (vars : ∀ v t, f v = some t → t = s.ty v) (rows : ∀ row row', g row = some row' → row' = row.subst s)
    {t' : Ty} (h : t.traverse f g = some t') : t' = t.subst s := by
  have all : ∀ ts : List Ty, (∀ t ∈ ts, ∀ t', t.traverse f g = some t' → t' = t.subst s) →
      ∀ ts', traverseAll f g ts = some ts' → ts' = ts.map (subst s) := by
    intro ts sound
    induction ts with
    | nil => simp [traverseAll]
    | cons t rest ih =>
      simp only [forall_mem_cons] at sound
      simp only [traverseAll, bind_eq_bind, bind_eq_some_iff, some.injEq]
      rintro _ ⟨t', first, rest', others, rfl⟩
      simp [← sound.1 t' first, ← ih sound.2 rest' others]
  have fields : ∀ fs : List (String × Ty), (∀ field ∈ fs, ∀ t', field.2.traverse f g = some t' → t' = field.2.subst s) →
      ∀ fs', traverseFields f g fs = some fs' → fs' = fs.map fun field => (field.1, field.2.subst s) := by
    intro fs sound
    induction fs with
    | nil => simp [traverseFields]
    | cons field rest ih =>
      simp only [forall_mem_cons] at sound
      simp only [traverseFields, bind_eq_bind, bind_eq_some_iff, some.injEq]
      rintro _ ⟨t', first, rest', others, rfl⟩
      simp [← sound.1 t' first, ← ih sound.2 rest' others]
  induction t using byParts generalizing t' with
  | var v => exact vars v t' h
  | prim | unit | never => simpa [traverse, subst, eq_comm] using h
  | list inner ih =>
    obtain ⟨inner', found, rfl⟩ := map_eq_some_iff.mp h
    simp only [subst, ← ih found]
  | tuple items ih =>
    obtain ⟨items', found, rfl⟩ := map_eq_some_iff.mp h
    simp [subst, all items (fun t mem t' => ih t mem) items' found]
  | record fs ih =>
    obtain ⟨fs', found, rfl⟩ := map_eq_some_iff.mp h
    simp [subst, fields fs (fun field mem t' => ih field mem) fs' found]
  | con name args ih =>
    obtain ⟨args', found, rfl⟩ := map_eq_some_iff.mp h
    simp [subst, all args (fun t mem t' => ih t mem) args' found]
  | function params effects ret ihParams ihRet =>
    simp only [traverse, bind_eq_bind, bind_eq_some_iff, some.injEq] at h
    obtain ⟨params', foundParams, effects', foundRow, ret', foundRet, rfl⟩ := h
    simp [subst, all params (fun t mem t' => ihParams t mem) params' foundParams, rows effects effects' foundRow,
      ihRet foundRet]

/-- A traversal that finds a replacement at every variable and every row is made. -/
theorem traverse_total {f : Nat → Option Ty}
    (found : t.Everywhere fun
      | var v => (f v).isSome
      | function _ effects _ => (g effects).isSome
      | _ => True) : (t.traverse f g).isSome := by
  have all : ∀ ts : List Ty, (∀ t ∈ ts, (t.traverse f g).isSome) → (traverseAll f g ts).isSome := by
    intro ts total
    induction ts with
    | nil => rfl
    | cons t rest ih =>
      simp only [forall_mem_cons, isSome_iff_exists] at total ih ⊢
      obtain ⟨⟨t', first⟩, others⟩ := total
      obtain ⟨rest', others⟩ := ih others
      exact ⟨t' :: rest', by simp [traverseAll, first, others]⟩
  have fields : ∀ fs : List (String × Ty), (∀ field ∈ fs, (field.2.traverse f g).isSome) →
      (traverseFields f g fs).isSome := by
    intro fs total
    induction fs with
    | nil => rfl
    | cons field rest ih =>
      simp only [forall_mem_cons, isSome_iff_exists] at total ih ⊢
      obtain ⟨⟨t', first⟩, others⟩ := total
      obtain ⟨rest', others⟩ := ih others
      exact ⟨(field.1, t') :: rest', by simp [traverseFields, first, others]⟩
  induction t using byParts with
  | var v => exact found
  | prim | unit | never => rfl
  | list inner ih => simpa [traverse] using ih found.2
  | tuple items ih =>
    simp only [Everywhere, everywhereAll_iff] at found
    simpa [traverse] using all items fun t mem => ih t mem (found.2 t mem)
  | record fs ih =>
    simp only [Everywhere, everywhereFields_iff] at found
    simpa [traverse] using fields fs fun field mem => ih field mem (found.2 field mem)
  | con name args ih =>
    simp only [Everywhere, everywhereAll_iff] at found
    simpa [traverse] using all args fun t mem => ih t mem (found.2 t mem)
  | function params effects ret ihParams ihRet =>
    simp only [Everywhere, everywhereAll_iff] at found
    obtain ⟨params', foundParams⟩ := isSome_iff_exists.mp
      (all params fun t mem => ihParams t mem (found.2.1 t mem))
    obtain ⟨effects', foundRow⟩ := isSome_iff_exists.mp found.1
    obtain ⟨ret', foundRet⟩ := isSome_iff_exists.mp (ihRet found.2.2)
    simp [traverse, foundParams, foundRow, foundRet]

/-! ## Sameness -/

/-- No record names a field twice: the fields of a record are a map. -/
def Distinct (t : Ty) : Prop := t.Everywhere fun
  | record fields => (fields.map Prod.fst).Nodup
  | _ => True

/-- The bottom type is no part of the type. -/
def NeverFree (t : Ty) : Prop := t.Everywhere (· ≠ never)

attribute [local simp] NeverFree

theorem distinct_subst (range : ∀ v, (s.ty v).Distinct) (h : t.Distinct) : (t.subst s).Distinct := by
  refine everywhere_subst (fun v _ => range v) (fun part notVar here => ?_) h
  cases part with
  | var v => exact absurd rfl (notVar v)
  | record fields => simpa [subst, Function.comp_def] using here
  | _ => trivial

theorem neverFree_subst (range : ∀ v, (s.ty v).NeverFree) (h : t.NeverFree) : (t.subst s).NeverFree := by
  refine everywhere_subst (fun v _ => range v) (fun part notVar here => ?_) h
  cases part with
  | var v => exact absurd rfl (notVar v)
  | never => exact absurd rfl here
  | _ => simp [subst]

theorem sameFields_iff {fs gs : List (String × Ty)} :
    sameFields fs gs = true ↔ ∀ field ∈ fs, ∃ u, gs.lookup field.1 = some u ∧ same field.2 u = true := by
  induction fs with
  | nil => simp [sameFields]
  | cons field rest ih =>
    cases found : gs.lookup field.1 <;> simp [sameFields, found, ih]

theorem lookup_of_mem {β : Type} {fs : List (String × β)} (distinct : (fs.map Prod.fst).Nodup) {field : String × β}
    (mem : field ∈ fs) : fs.lookup field.1 = some field.2 := by
  induction fs with
  | nil => simp at mem
  | cons other rest ih =>
    obtain ⟨name, t⟩ := other
    simp only [map_cons, nodup_cons] at distinct
    rcases mem_cons.mp mem with rfl | mem
    · simp
    · have differ : field.1 ≠ name := fun eq => distinct.1 (eq ▸ List.mem_map_of_mem mem)
      simp [lookup_cons, beq_false_of_ne differ, ih distinct.2 mem]

theorem mem_of_lookup {β : Type} {fs : List (String × β)} {name : String} {t : β} (found : fs.lookup name = some t) :
    (name, t) ∈ fs := by
  induction fs with
  | nil => cases found
  | cons field rest ih =>
    obtain ⟨other, u⟩ := field
    cases eq : name == other with
    | true =>
      simp only [lookup_cons, eq, some.injEq] at found
      simp [eq_of_beq eq, found]
    | false =>
      simp only [lookup_cons, eq] at found
      exact mem_cons_of_mem _ (ih found)

theorem same_refl (h : t.Distinct) : same t t = true := by
  have all : ∀ ts : List Ty, (∀ t ∈ ts, same t t = true) → sameAll ts ts = true := by
    intro ts refl
    induction ts with
    | nil => rfl
    | cons t rest ih =>
      simp only [forall_mem_cons] at refl
      simp [sameAll, refl.1, ih refl.2]
  induction t using byParts with
  | var | prim | unit | never => simp [same]
  | list inner ih => exact ih h.2
  | tuple items ih =>
    simp only [Distinct, Everywhere, everywhereAll_iff] at h
    exact all items fun t mem => ih t mem (h.2 t mem)
  | record fields ih =>
    simp only [Distinct, Everywhere, everywhereFields_iff] at h
    simp only [same, decide_true, Bool.true_and, sameFields_iff]
    exact fun field mem => ⟨field.2, lookup_of_mem h.1 mem, ih field mem (h.2 field mem)⟩
  | con name args ih =>
    simp only [Distinct, Everywhere, everywhereAll_iff] at h
    simp [same, all args fun t mem => ih t mem (h.2 t mem)]
  | function params effects ret ihParams ihRet =>
    simp only [Distinct, Everywhere, everywhereAll_iff] at h
    simp [same, all params fun t mem => ihParams t mem (h.2.1 t mem), ihRet h.2.2]

theorem lookup_subst (s : Subst) (fs : List (String × Ty)) (name : String) :
    (fs.map fun field => (field.1, field.2.subst s)).lookup name = (fs.lookup name).map (subst s) := by
  induction fs with
  | nil => rfl
  | cons field rest ih =>
    obtain ⟨other, t⟩ := field
    cases eq : name == other <;> simp [lookup_cons, eq, ih]

theorem same_subst (range : ∀ v, (s.ty v).Distinct) {u : Ty} (h : same t u = true) :
    same (t.subst s) (u.subst s) = true := by
  have all : ∀ ts us : List Ty, (∀ t ∈ ts, ∀ u, same t u = true → same (t.subst s) (u.subst s) = true) →
      sameAll ts us = true → sameAll (ts.map (subst s)) (us.map (subst s)) = true := by
    intro ts us stays
    induction ts generalizing us with
    | nil => cases us <;> simp [sameAll]
    | cons t rest ih =>
      simp only [forall_mem_cons] at stays
      cases us with
      | nil => simp [sameAll]
      | cons u us =>
        simp only [sameAll, map_cons, and_eq_true]
        exact fun h => ⟨stays.1 u h.1, ih us stays.2 h.2⟩
  induction t using byParts generalizing u with
  | var v =>
    cases u <;> simp only [same, decide_eq_true_eq, false_eq_true] at h
    rw [h]
    exact same_refl (range _)
  | prim | unit | never => cases u <;> first | exact h | cases h
  | list inner ih =>
    cases u <;> simp only [same, false_eq_true] at h
    exact ih h
  | tuple items ih =>
    cases u <;> simp only [same, false_eq_true] at h
    simp [subst, same, all items _ (fun t mem u => ih t mem) h]
  | record fields ih =>
    cases u <;> simp only [same, false_eq_true] at h
    simp only [and_eq_true, decide_eq_true_eq, sameFields_iff] at h
    simp only [subst, substFields_eq_map, same, length_map, and_eq_true, decide_eq_true_eq, sameFields_iff,
      List.forall_mem_map, lookup_subst]
    refine ⟨h.1, fun field mem => ?_⟩
    obtain ⟨u, found, eq⟩ := h.2 field mem
    exact ⟨u.subst s, by simp [found], ih field mem eq⟩
  | con name args ih =>
    cases u <;> simp only [same, false_eq_true, and_eq_true, decide_eq_true_eq] at h
    simp [subst, same, h.1, all args _ (fun t mem u => ih t mem) h.2]
  | function params effects ret ihParams ihRet =>
    cases u <;> simp only [same, false_eq_true, and_eq_true, decide_eq_true_eq] at h
    simp [subst, same, h.2.1, all params _ (fun t mem u => ihParams t mem) h.1, ihRet h.2.2]

end Ty

end LexLang.Types
