/-
# LexLang.Types.ExhaustiveSearch — what `missing_patterns` says is so

Where the search finds nothing, every value has a row that accepts it; where it finds something, each row of
it has a value that it describes and that no row accepts. The patterns have to be tested as they are checked.
-/
import LexLang.Types.PatternOpening
import Mathlib.Data.Set.Finite.Basic

namespace LexLang.Types

open LexLang.Ast (Pattern CLit)
open List Option

/-! ## Shapes -/

/-- What a witness says of a value. -/
inductive Shape
  | any
  | ctor (name : String) (payload : Option Shape)
  | tuple (items : List Shape)
  | record (fields : List (String × Shape))

def shapes : Render Shape := ⟨.any, .ctor, .tuple, .record⟩

section Fold

variable {W : Type} (r : Render W)

mutual

def Shape.fold : Shape → W
  | .any => r.any
  | .ctor name none => r.ctor name none
  | .ctor name (some payload) => r.ctor name (some payload.fold)
  | .tuple items => r.tuple (foldAll items)
  | .record fields => r.record (foldFields fields)

def foldAll : List Shape → List W
  | [] => []
  | s :: rest => s.fold :: foldAll rest

def foldFields : List (String × Shape) → List (String × W)
  | [] => []
  | (name, s) :: rest => (name, s.fold) :: foldFields rest

end

theorem foldAll_eq_map (items : List Shape) : foldAll r items = items.map (Shape.fold r) := by
  induction items with
  | nil => rfl
  | cons s rest ih => simp [foldAll, ih]

theorem foldFields_eq_map (fields : List (String × Shape)) :
    foldFields r fields = fields.map fun f => (f.1, f.2.fold r) := by
  induction fields with
  | nil => rfl
  | cons f rest ih => simp [foldFields, ih]

end Fold

mutual

def Describes : Shape → Val → Prop
  | .any, _ => True
  | .ctor name none, v => v = .variant name [] ∨ ∃ value, v = .literal value ∧ headCtor (.pLiteral value) = some name
  | .ctor name (some payload), v =>
    ∃ vs x, v = .variant name vs ∧ (vs = [x] ∨ x = .tuple vs) ∧ Describes payload x
  | .tuple items, v => ∃ vs, v = .tuple vs ∧ DescribesAll items vs
  | .record fields, v => ∃ vs, v = .record vs ∧ DescribesFields fields vs

def DescribesAll : List Shape → List Val → Prop
  | [], [] => True
  | s :: ss, v :: vs => Describes s v ∧ DescribesAll ss vs
  | _, _ => False

def DescribesFields : List (String × Shape) → List (String × Val) → Prop
  | [], [] => True
  | (name, s) :: ss, (field, v) :: vs => name = field ∧ Describes s v ∧ DescribesFields ss vs
  | _, _ => False

end

variable {vs : List Val}

theorem describesAll_iff {ss : List Shape} : DescribesAll ss vs ↔ List.Forall₂ Describes ss vs := by
  induction ss generalizing vs with
  | nil => cases vs <;> simp [DescribesAll]
  | cons s ss ih => cases vs <;> simp [DescribesAll, ih]

theorem describesFields_zip {names : List String} {ss : List Shape}
    (described : List.Forall₂ Describes ss vs) : DescribesFields (names.zip ss) (names.zip vs) := by
  induction described generalizing names with
  | nil => simp [DescribesFields]
  | cons here rest ih =>
    cases names with
    | nil => simp [DescribesFields]
    | cons name names => simpa [DescribesFields] using ⟨here, ih⟩

theorem describes_anys (vs : List Val) : List.Forall₂ Describes (List.replicate vs.length .any) vs := by
  induction vs with
  | nil => exact .nil
  | cons v vs ih => exact .cons (by simp [Describes]) ih

/-- The types that a type with the signature is taken apart to. -/
def Signature.parts : Signature → List Ty
  | .ctors variants => variants.filterMap Prod.snd
  | .product fields _ => fields.map Prod.snd
  | _ => []

namespace Checker

variable {c : Checker}

/-! ## Signatures -/

variable {t : Ty}

/-- A signature other than the opaque one is that of what is exposed. -/
theorem exposes_of_signatureOf {sig : Signature} (eq : c.signatureOf t = sig) (seen : sig ≠ .opaque_) :
    ∃ t', c.Exposes t t' ∧ c.classify t' = sig := by
  simp only [signatureOf] at eq
  split at eq
  · next t' found => exact ⟨t', ⟨_, found⟩, eq⟩
  · exact absurd eq.symm seen

variable {v : Val}

theorem not_typed_of_never (never : c.signatureOf t = .never) : ¬ c.Typed v t := by
  intro typed
  obtain ⟨t', exposed, eq⟩ := exposes_of_signatureOf never (by simp)
  obtain rfl : t' = .never := by
    revert eq
    rcases t' with v | (_ | _ | _ | _ | _) | _ | _ | inner | items | fields | ⟨name, args⟩ | _ <;> simp [classify]
    split <;> try split
    all_goals simp
  exact typed.looks exposed

/-- What the fields of a product make. -/
def productShape (kind : ProductKind) (fields : List (String × Ty)) (parts : List Shape) : Shape :=
  match kind with
  | .tuple => .tuple parts
  | .record => .record ((fields.map Prod.fst).zip parts)

theorem product_shapes (kind : ProductKind) (fields : List (String × Ty)) (row : List Shape) :
    shapes.product kind fields row = productShape kind fields (row.take fields.length) :: row.drop fields.length := by
  cases kind <;> rfl

/-- **A column can be opened**: patterns and values alike, and what is described inside is described outside. -/
structure Opening (c : Checker) (special : Pattern → Option (List Pattern)) (t : Ty) (ts : List Ty)
    (build : List Shape → Shape) : Prop where
  refines : c.Refines special t ts
  make : ∀ parts, List.Forall₂ c.Typed parts ts → ∃ v, c.Opens special t ts v parts ∧
    ∀ inside, List.Forall₂ Describes inside parts → Describes (build inside) v

theorem classify_product {fields : List (String × Ty)} {kind : ProductKind}
    (eq : c.classify t = .product fields kind) :
    (t = .tuple (fields.map Prod.snd) ∧ kind = .tuple) ∨ (t = .record fields ∧ kind = .record) := by
  revert eq
  rcases t with v | (_ | _ | _ | _ | _) | _ | _ | inner | items | fs | ⟨name, args⟩ | _ <;> simp [classify]
  · rintro rfl rfl
    simpa using ext_getElem (by simp) (by simp)
  · rintro rfl rfl
    exact ⟨rfl, rfl⟩
  · split <;> try split
    all_goals simp

section Product

variable {t : Ty} {fields : List (String × Ty)} {kind : ProductKind}

theorem opening_product (sig : c.signatureOf t = .product fields kind) (distinct : (fields.map Prod.fst).Nodup ∨ kind = .tuple) :
    c.Opening (specializeProduct · fields kind) t (fields.map Prod.snd) (productShape kind fields) := by
  obtain ⟨t', exposed, eq⟩ := exposes_of_signatureOf sig (by simp)
  rcases classify_product eq with ⟨rfl, rfl⟩ | ⟨rfl, rfl⟩
  · refine ⟨refines_tuple exposed rfl, fun parts typed => ⟨_, opens_tuple exposed rfl typed, fun inside described => ?_⟩⟩
    exact ⟨parts, rfl, describesAll_iff.mpr described⟩
  · have distinct : (fields.map Prod.fst).Nodup := by simpa using distinct
    refine ⟨refines_record exposed distinct, fun parts typed =>
      ⟨_, opens_record exposed distinct typed, fun inside described => ?_⟩⟩
    exact ⟨_, rfl, describesFields_zip described⟩

/-- Every value of a product is opened. -/
theorem opens_product (sig : c.signatureOf t = .product fields kind) (distinct : (fields.map Prod.fst).Nodup ∨ kind = .tuple)
    (typed : c.Typed v t) : ∃ parts, c.Opens (specializeProduct · fields kind) t (fields.map Prod.snd) v parts := by
  obtain ⟨t', exposed, eq⟩ := exposes_of_signatureOf sig (by simp)
  rcases classify_product eq with ⟨rfl, rfl⟩ | ⟨rfl, rfl⟩
  · obtain ⟨parts, rfl, inside⟩ := typed.looks exposed
    exact ⟨parts, opens_tuple exposed rfl inside⟩
  · obtain ⟨parts, rfl, inside⟩ := typed.looks exposed
    exact ⟨parts, opens_record exposed (by simpa using distinct) inside⟩

end Product

variable {variants : List (String × Option Ty)}

/-- A signature of constructors is that of a literal type or of a declared union. -/
theorem classify_ctors (eq : c.classify t = .ctors variants) :
    (t = .prim .bool ∧ variants = [("true", none), ("false", none)]) ∨ (t = .unit ∧ variants = [("()", none)]) ∨
      ∃ owner targs params declared, t = .con owner targs ∧
        c.typeEnv.types owner = some ⟨params, .union declared⟩ ∧ params.length = targs.length ∧
        variants = declared.map fun v => (v.1, v.2.map (Ty.instantiate targs)) := by
  revert eq
  rcases t with v | (_ | _ | _ | _ | _) | _ | _ | inner | items | fs | ⟨name, args⟩ | _ <;> simp [classify]
  · exact Eq.symm
  · exact Eq.symm
  · split
    · next params declared found =>
      split
      · next arity => exact fun eq => ⟨params, declared, found, arity, by simpa using eq.symm⟩
      · simp
    · simp

section Ctors

variable {t : Ty} {variants : List (String × Option Ty)} {name : String} {payload : Option Ty}

theorem opening_literal (value : CLit) (head : headCtor (.pLiteral value) = some name)
    (exposed : c.Exposes t (litType value)) :
    c.Opening (specializeCtor · name false) t [] fun inside => .ctor name inside.head? := by
  refine ⟨refines_constant name t, fun parts typed => ?_⟩
  cases typed
  refine ⟨_, opens_literal head exposed, fun inside described => ?_⟩
  cases described
  simpa [Describes] using head

/-- Each constructor opens a column of its type. -/
theorem opening_ctor (sig : c.signatureOf t = .ctors variants) (mem : (name, payload) ∈ variants) :
    c.Opening (specializeCtor · name payload.isSome) t payload.toList fun inside => .ctor name inside.head? := by
  obtain ⟨t', exposed, eq⟩ := exposes_of_signatureOf sig (by simp)
  rcases classify_ctors eq with ⟨rfl, rfl⟩ | ⟨rfl, rfl⟩ | ⟨owner, targs, params, declared, rfl, found, arity, rfl⟩
  · simp only [mem_cons, not_mem_nil, or_false] at mem
    rcases mem with ⟨rfl, rfl⟩ | ⟨rfl, rfl⟩
    · exact opening_literal (.bool true) rfl exposed
    · exact opening_literal (.bool false) rfl exposed
  · simp only [mem_cons, not_mem_nil, or_false] at mem
    obtain ⟨rfl, rfl⟩ := mem
    exact opening_literal .unit rfl exposed
  · obtain ⟨⟨name, payload'⟩, memDeclared, same⟩ := List.mem_map.mp mem
    cases same
    cases payload' with
    | none =>
      refine ⟨refines_constant name t, fun parts typed => ?_⟩
      cases typed
      refine ⟨_, opens_constant exposed found arity memDeclared, fun inside described => ?_⟩
      cases described
      simp [Describes]
    | some payload' =>
      refine ⟨refines_variant exposed found memDeclared, fun parts typed => ?_⟩
      obtain ⟨x, rest, here, last, rfl⟩ := forall₂_cons_right_iff.mp typed
      cases last
      obtain ⟨vs, packs, args⟩ := packs_of_payload here
      refine ⟨_, opens_variant exposed found arity memDeclared packs args here, fun inside described => ?_⟩
      obtain ⟨s, ss, shown, last, rfl⟩ := forall₂_cons_right_iff.mp described
      cases last
      refine ⟨vs, x, rfl, ?_, shown⟩
      rcases packs with ⟨-, rfl⟩ | ⟨items, -, -, -, rfl⟩
      · exact .inl rfl
      · exact .inr rfl

/-- Every value of a type with constructors is opened by one of them. -/
theorem opens_ctor (sig : c.signatureOf t = .ctors variants) (typed : c.Typed v t) :
    ∃ name payload parts, (name, payload) ∈ variants ∧
      c.Opens (specializeCtor · name payload.isSome) t payload.toList v parts := by
  obtain ⟨t', exposed, eq⟩ := exposes_of_signatureOf sig (by simp)
  rcases classify_ctors eq with ⟨rfl, rfl⟩ | ⟨rfl, rfl⟩ | ⟨owner, targs, params, declared, rfl, found, arity, rfl⟩
  · obtain ⟨value, rfl, isBool⟩ := typed.looks exposed
    cases value <;> simp [litType] at isBool
    rename_i b
    refine ⟨boolCtor b, none, [], by cases b <;> simp [boolCtor], opens_literal rfl exposed⟩
  · obtain rfl := typed.looks exposed
    exact ⟨"()", none, [], by simp, opens_literal rfl exposed⟩
  · obtain ⟨name, payload, vs, mem, rfl, parts⟩ := typed_union exposed found arity typed
    refine ⟨name, payload.map (Ty.instantiate targs), ?_⟩
    cases payload with
    | none =>
      cases parts
      exact ⟨[], List.mem_map.mpr ⟨_, mem, rfl⟩, opens_constant exposed found arity mem⟩
    | some payload =>
      obtain ⟨x, packs, here⟩ := packs_of_arguments parts
      exact ⟨[x], List.mem_map.mpr ⟨_, mem, rfl⟩, opens_variant exposed found arity mem packs parts here⟩

theorem headCtor_of_specializeCtor {p : Pattern} {sub : List Pattern} {hasPayload : Bool}
    (found : specializeCtor p name hasPayload = some sub) : isWild p = true ∨ headCtor p = some name := by
  cases p with
  | pLiteral value => cases value <;> simp_all [specializeCtor, isWild, headCtor]
  | pTuple items => cases items <;> simp_all [specializeCtor, isWild, headCtor]
  | _ => simp_all [specializeCtor, isWild, headCtor]

end Ctors

/-! ## Opaque columns -/

/-- Infinitely many literals of each type but one. -/
def nthLiteral (n : Nat) : Prim → CLit
  | .int => .int n
  | .float => .float (String.ofList (List.replicate n '0'))
  | .str => .str (String.ofList (List.replicate n 'a'))
  | .bytes => .bytes (String.ofList (List.replicate n 'a'))
  | .bool => .bool true

theorem exists_other_literal {p : Prim} (notBool : p ≠ .bool) (taken : List CLit) :
    ∃ value, litType value = .prim p ∧ value ∉ taken := by
  have texts : ∀ a n m, String.ofList (List.replicate n a) = String.ofList (List.replicate m a) → n = m := by
    intro a n m eq
    simpa using congrArg List.length (String.ofList_injective eq)
  have injective : Function.Injective fun n => nthLiteral n p := by
    intro n m eq
    cases p with
    | int =>
      simp only [nthLiteral, CLit.int.injEq] at eq
      omega
    | bool => exact absurd rfl notBool
    | _ =>
      simp only [nthLiteral, CLit.float.injEq, CLit.str.injEq, CLit.bytes.injEq] at eq
      exact texts _ n m eq
  obtain ⟨value, ⟨n, rfl⟩, other⟩ := (Set.infinite_range_of_injective injective).exists_notMem_finset taken.toFinset
  exact ⟨nthLiteral n p, by cases p <;> rfl, by simpa using other⟩

/-- The literal a pattern asks for. -/
def literalOf : Pattern → Option CLit
  | .pLiteral value => some (Compiler.CLit.encoded value)
  | _ => none

theorem opaque_value (sig : c.signatureOf t = .opaque_)
    (short : (c.unfold maxAliasUnfolds (c.resolve t)).isSome) (heads : List Pattern) :
    ∃ v, c.Typed v t ∧ ∀ p ∈ heads, c.Fits p t → accepts p v = true → isWild p = true := by
  obtain ⟨t', found⟩ := isSome_iff_exists.mp short
  have exposed : c.Exposes t t' := ⟨_, found⟩
  simp only [signatureOf, found] at sig
  by_cases literal : ∃ p, t' = .prim p
  · obtain ⟨prim, rfl⟩ := literal
    have notBool : prim ≠ .bool := by
      rintro rfl
      cases sig
    obtain ⟨value, typed, other⟩ := exists_other_literal notBool (heads.filterMap literalOf)
    refine ⟨.literal value, .literal value (typed ▸ exposed), fun p mem fits accepted => ?_⟩
    cases p with
    | pWild | pVar name => rfl
    | pLiteral taken =>
      simp only [accepts, decide_eq_true_eq] at accepted
      exact absurd (mem_filterMap.mpr ⟨_, mem, accepted ▸ rfl⟩) other
    | pConstructor name args => simp [accepts] at accepted
    | pRecord fields =>
      have typed := fits.1
      obtain ⟨fts, exposed', -⟩ := typed
      cases exposed'.unique exposed
    | pTuple items =>
      cases items with
      | nil => cases Exposes.unique (by simpa [WellTyped] using fits.1) exposed
      | cons item items => simp [accepts] at accepted
  · have unseen : c.Unseen t' := by
      cases t' with
      | prim p => exact absurd ⟨p, rfl⟩ literal
      | _ => exact sig
    refine ⟨.other 0, .unseen _ exposed unseen, fun p mem fits accepted => ?_⟩
    cases p with
    | pWild | pVar name => rfl
    | pLiteral taken => simp [accepts] at accepted
    | pConstructor name args => simp [accepts] at accepted
    | pRecord fields =>
      have typed := fits.1
      obtain ⟨fts, exposed', -⟩ := typed
      cases exposed'.unique exposed
      cases sig
    | pTuple items =>
      cases items with
      | nil =>
        cases Exposes.unique (by simpa [WellTyped] using fits.1) exposed
        cases sig
      | cons item items => simp [accepts] at accepted

/-! ## Records are maps all the way down -/

theorem distinct_instantiate {args : List Ty} (maps : ∀ t ∈ args, t.Distinct) (h : t.Distinct) :
    (t.instantiate args).Distinct := by
  refine Ty.distinct_subst (fun v => ?_) h
  show (args.getD v (.var v)).Distinct
  rw [getD_eq_getElem?_getD]
  cases found : args[v]? with
  | none => trivial
  | some arg => exact maps arg (mem_of_getElem? found)

theorem distinct_resolve (h : t.Distinct) : (c.resolve t).Distinct := Ty.distinct_subst c.distinct h

theorem distinct_aliasOf {t inner : Ty} (h : t.Distinct) (alias_ : c.aliasOf t = some inner) : inner.Distinct := by
  cases t with
  | con name args =>
    simp only [aliasOf] at alias_
    split at alias_
    · next params body found =>
      split at alias_
      · cases alias_
        simp only [Ty.Distinct, Ty.Everywhere, Ty.everywhereAll_iff] at h
        exact distinct_instantiate h.2 (c.proper _ _ found)
      · cases alias_
    · cases alias_
  | _ => simp [aliasOf] at alias_

variable {n : Nat}

theorem distinct_unfold {t t' : Ty} (h : t.Distinct) (done : c.unfold n t = some t') : t'.Distinct := by
  induction n generalizing t with
  | zero =>
    simp only [unfold] at done
    split at done
    · cases done
    · cases done
      exact h
  | succ n ih =>
    simp only [unfold] at done
    split at done
    · next inner alias_ => exact ih (distinct_resolve (distinct_aliasOf h alias_)) done
    · cases done
      exact h

theorem distinct_product {fields : List (String × Ty)} {kind : ProductKind} (h : t.Distinct)
    (sig : c.signatureOf t = .product fields kind) :
    ((fields.map Prod.fst).Nodup ∨ kind = .tuple) ∧ ∀ f ∈ fields, f.2.Distinct := by
  obtain ⟨t', ⟨n, exposed⟩, eq⟩ := exposes_of_signatureOf sig (by simp)
  have inner := distinct_unfold (distinct_resolve h) exposed
  rcases classify_product eq with ⟨rfl, rfl⟩ | ⟨rfl, rfl⟩
  · simp only [Ty.Distinct, Ty.Everywhere, Ty.everywhereAll_iff, List.forall_mem_map] at inner
    exact ⟨.inr rfl, inner.2⟩
  · simp only [Ty.Distinct, Ty.Everywhere, Ty.everywhereFields_iff] at inner
    exact ⟨.inl inner.1, inner.2⟩

theorem distinct_ctors (h : t.Distinct)
    (sig : c.signatureOf t = .ctors variants) : ∀ v ∈ variants, ∀ payload ∈ v.2, payload.Distinct := by
  obtain ⟨t', ⟨n, exposed⟩, eq⟩ := exposes_of_signatureOf sig (by simp)
  have inner := distinct_unfold (distinct_resolve h) exposed
  rcases classify_ctors eq with ⟨rfl, rfl⟩ | ⟨rfl, rfl⟩ | ⟨owner, targs, params, declared, rfl, found, arity, rfl⟩
  · simp
  · simp
  · simp only [Ty.Distinct, Ty.Everywhere, Ty.everywhereAll_iff] at inner
    simp only [List.forall_mem_map, mem_def, map_eq_some_iff]
    rintro v mem _ ⟨payload, eq, rfl⟩
    exact distinct_instantiate inner.2 ((c.proper _ _ found).2 v mem payload eq)

/-! ## One step of the search -/

variable {tys : List Ty}

section Search

variable {W : Type} {r : Render W} {search search' : List (List Pattern) → List Ty → Option (Option (List (List W)))}
  {rows : List (List Pattern)} {head : Ty} {rest : List Ty} {result : Option (List (List W))}

/-- What a step comes to, by the signature of the first column. -/
inductive Step (c : Checker) (r : Render W) (search : List (List Pattern) → List Ty → Option (Option (List (List W))))
    (rows : List (List Pattern)) (head : Ty) (rest : List Ty) : Option (List (List W)) → Prop
  | never (sig : c.signatureOf head = .never) : Step c r search rows head rest none
  | vacant (seen : c.signatureOf head ≠ .never) (empty : rows = []) :
      Step c r search rows head rest (some [List.replicate (rest.length + 1) r.any])
  | opaque_ {ws : Option (List (List W))} (sig : c.signatureOf head = .opaque_) (filled : rows ≠ [])
      (found : search (defaultRows rows) rest = some ws) :
      Step c r search rows head rest (ws.map fun ws => ws.map fun w => r.any :: w)
  | skipped {fields : List (String × Ty)} {kind : ProductKind} {ws : Option (List (List W))}
      (sig : c.signatureOf head = .product fields kind) (filled : rows ≠ [])
      (wild : ∀ row ∈ rows, row.head?.elim false isWild = true) (found : search (defaultRows rows) rest = some ws) :
      Step c r search rows head rest
        (ws.map fun ws => ws.map fun w => r.product kind fields (List.replicate fields.length r.any ++ w))
  | product {fields : List (String × Ty)} {kind : ProductKind} {ws : Option (List (List W))}
      (sig : c.signatureOf head = .product fields kind) (filled : rows ≠ [])
      (looks : ¬ ∀ row ∈ rows, row.head?.elim false isWild = true)
      (found : search (specialized (specializeProduct · fields kind) rows) (fields.map Prod.snd ++ rest) = some ws) :
      Step c r search rows head rest (ws.map fun ws => ws.map (r.product kind fields))
  | complete {variants : List (String × Option Ty)} {ws : Option (List (List W))}
      (sig : c.signatureOf head = .ctors variants) (filled : rows ≠ [])
      (named : ∀ v ∈ variants, v.1 ∈ present rows) (found : firstHole search r rows rest variants = some ws) :
      Step c r search rows head rest ws
  | incomplete {variants : List (String × Option Ty)} {ws : Option (List (List W))}
      (sig : c.signatureOf head = .ctors variants) (filled : rows ≠ [])
      (unnamed : ¬ ∀ v ∈ variants, v.1 ∈ present rows) (found : search (defaultRows rows) rest = some ws) :
      Step c r search rows head rest (ws.map (r.missing (variants.filter fun v => v.1 ∉ present rows)))

theorem step_of_missingPatterns (done : c.missingPatterns r (n + 1) rows (head :: rest) = some result) :
    c.Step r (c.missingPatterns r n) rows head rest result := by
  by_cases never : c.signatureOf head = .never
  · simp only [missingPatterns, never, some.injEq] at done
    exact done ▸ .never never
  by_cases empty : rows = []
  · cases sig : c.signatureOf head <;>
      simp only [missingPatterns, sig, empty, isEmpty_nil, if_true, some.injEq] at done
    · exact done ▸ .vacant never empty
    · exact done ▸ .vacant never empty
    · exact absurd sig never
    · exact done ▸ .vacant never empty
  have filled : rows.isEmpty = false := by simpa using empty
  cases sig : c.signatureOf head with
  | never => exact absurd sig never
  | opaque_ =>
    simp only [missingPatterns, sig, filled, Bool.false_eq_true, if_false, bind_eq_bind,
      bind_eq_some_iff, some.injEq] at done
    obtain ⟨ws, found, rfl⟩ := done
    exact .opaque_ sig empty found
  | product fields kind =>
    by_cases wild : ∀ row ∈ rows, row.head?.elim false isWild = true
    · have all := List.all_eq_true.mpr wild
      simp only [missingPatterns, sig, filled, all, Bool.false_eq_true, if_false, if_true, bind_eq_bind,
        bind_eq_some_iff, some.injEq] at done
      obtain ⟨ws, found, _, rfl, rfl⟩ := done
      simpa [Function.comp_def] using Step.skipped sig empty wild found
    · have all : (rows.all fun row => row.head?.elim false isWild) = false := by
        exact Bool.eq_false_iff.mpr fun all => wild (List.all_eq_true.mp all)
      simp only [missingPatterns, sig, filled, all, Bool.false_eq_true, if_false, bind_eq_bind,
        bind_eq_some_iff, some.injEq] at done
      obtain ⟨ws, found, rfl⟩ := done
      exact .product sig empty wild found
  | ctors variants =>
    by_cases named : ∀ v ∈ variants, v.1 ∈ present rows
    · have none : (variants.filter fun v => v.1 ∉ present rows).isEmpty = true := by
        simpa using named
      simp only [missingPatterns, sig, filled, none] at done
      exact .complete sig empty named done
    · have some_ : (variants.filter fun v => v.1 ∉ present rows).isEmpty = false := by
        simpa using named
      simp only [missingPatterns, sig, filled, some_, Bool.false_eq_true, if_false, bind_eq_bind,
        bind_eq_some_iff, some.injEq] at done
      obtain ⟨ws, found, rfl⟩ := done
      exact .incomplete sig empty named found

theorem missingPatterns_of_step (step : c.Step r (c.missingPatterns r n) rows head rest result) :
    c.missingPatterns r (n + 1) rows (head :: rest) = some result := by
  cases step with
  | never sig => simp [missingPatterns, sig]
  | vacant seen empty => cases sig : c.signatureOf head <;> simp_all [missingPatterns]
  | opaque_ sig filled found => simp [missingPatterns, sig, filled, found]
  | skipped sig filled wild found =>
    have all := List.all_eq_true.mpr wild
    simp [missingPatterns, sig, filled, all, found, Function.comp_def]
  | product sig filled looks found =>
    have all : (rows.all fun row => row.head?.elim false isWild) = false := by
      exact Bool.eq_false_iff.mpr fun all => looks (List.all_eq_true.mp all)
    simp [missingPatterns, sig, filled, all, found]
  | @complete variants ws sig filled named found =>
    have none : (variants.filter fun v => v.1 ∉ present rows).isEmpty = true := by
      simpa using named
    have filled : rows.isEmpty = false := by simpa using filled
    simp only [missingPatterns, sig, filled, none, Bool.false_eq_true, if_false, if_true, found]
  | @incomplete variants ws sig filled unnamed found =>
    have some_ : (variants.filter fun v => v.1 ∉ present rows).isEmpty = false := by
      simpa using unnamed
    have filled : rows.isEmpty = false := by simpa using filled
    simp only [missingPatterns, sig, filled, some_, Bool.false_eq_true, if_false, found, bind_eq_bind,
      bind_some]

/-! ## The loop over the variants -/

theorem firstHole_none
    (none_ : firstHole search r rows rest variants = some none) {v : String × Option Ty} (mem : v ∈ variants) :
    search (specialized (specializeCtor · v.1 v.2.isSome) rows) (v.2.toList ++ rest) = some none := by
  induction variants with
  | nil => simp at mem
  | cons w variants ih =>
    simp only [firstHole, bind_eq_bind, bind_eq_some_iff] at none_
    obtain ⟨ws, found, next⟩ := none_
    cases ws with
    | some ws => cases next
    | none =>
      rcases mem_cons.mp mem with rfl | mem
      · exact found
      · exact ih next mem

theorem firstHole_some {ws : List (List W)} (some_ : firstHole search r rows rest variants = some (some ws)) :
    ∃ v ∈ variants, ∃ inside, search (specialized (specializeCtor · v.1 v.2.isSome) rows) (v.2.toList ++ rest) =
      some (some inside) ∧ ws = inside.map (r.variant v.1 v.2) := by
  induction variants with
  | nil => cases some_
  | cons w variants ih =>
    simp only [firstHole, bind_eq_bind, bind_eq_some_iff] at some_
    obtain ⟨found, searched, next⟩ := some_
    cases found with
    | some inside =>
      cases next
      exact ⟨w, by simp, inside, searched, rfl⟩
    | none =>
      obtain ⟨v, mem, rest⟩ := ih next
      exact ⟨v, mem_cons_of_mem _ mem, rest⟩

theorem firstHole_mono (agree : ∀ rows tys found, search rows tys = some found → search' rows tys = some found)
    (done : firstHole search r rows rest variants = some result) :
    firstHole search' r rows rest variants = some result := by
  induction variants with
  | nil => exact done
  | cons w variants ih =>
    simp only [firstHole, bind_eq_bind, bind_eq_some_iff] at done ⊢
    obtain ⟨found, searched, next⟩ := done
    refine ⟨found, agree _ _ _ searched, ?_⟩
    cases found with
    | some inside => exact next
    | none => exact ih next

theorem firstHole_isSome (ends : ∀ v ∈ variants,
    (search (specialized (specializeCtor · v.1 v.2.isSome) rows) (v.2.toList ++ rest)).isSome = true) :
    (firstHole search r rows rest variants).isSome = true := by
  induction variants with
  | nil => rfl
  | cons w variants ih =>
    simp only [forall_mem_cons] at ends
    obtain ⟨found, searched⟩ := isSome_iff_exists.mp ends.1
    simp only [firstHole, searched]
    cases found with
    | some inside => rfl
    | none => exact ih ends.2

theorem Step.mono (agree : ∀ rows tys found, search rows tys = some found → search' rows tys = some found)
    (step : c.Step r search rows head rest result) : c.Step r search' rows head rest result := by
  cases step with
  | never sig => exact .never sig
  | vacant seen empty => exact .vacant seen empty
  | opaque_ sig filled found => exact .opaque_ sig filled (agree _ _ _ found)
  | skipped sig filled wild found => exact .skipped sig filled wild (agree _ _ _ found)
  | product sig filled looks found => exact .product sig filled looks (agree _ _ _ found)
  | complete sig filled named found => exact .complete sig filled named (firstHole_mono agree found)
  | incomplete sig filled unnamed found => exact .incomplete sig filled unnamed (agree _ _ _ found)

theorem missingPatterns_mono {m : Nat} (le : n ≤ m)
    (done : c.missingPatterns r n rows tys = some result) : c.missingPatterns r m rows tys = some result := by
  induction n generalizing m rows tys result with
  | zero => cases done
  | succ n ih =>
    obtain ⟨m, rfl⟩ : ∃ k, m = k + 1 := ⟨m - 1, by omega⟩
    cases tys with
    | nil => exact done
    | cons head rest =>
      refine missingPatterns_of_step ((step_of_missingPatterns done).mono ?_)
      intro rows tys found done
      exact ih (by omega) done

end Search

/-! ## Where nothing is missing -/

/-- **A matrix in which nothing is missing covers all values.** -/
theorem covers_of_missingPatterns {W : Type} {r : Render W} {rows : List (List Pattern)}
    (maps : ∀ t ∈ tys, t.Distinct) (fit : ∀ row ∈ rows, c.FitsRow row tys)
    (done : c.missingPatterns r n rows tys = some none) (typed : List.Forall₂ c.Typed vs tys) : Covers rows vs := by
  induction n generalizing rows tys vs with
  | zero => cases done
  | succ n ih =>
    cases typed with
    | nil =>
      simp only [missingPatterns] at done
      cases rows with
      | nil => simp at done
      | cons row rows =>
        obtain rfl := forall₂_nil_right_iff.mp (fit row (by simp))
        exact ⟨[], by simp, rfl⟩
    | @cons v head vs rest here later =>
      simp only [forall_mem_cons] at maps
      have byDefault (found : c.missingPatterns r n (defaultRows rows) rest = some none) :
          Covers rows (v :: vs) :=
        covers_of_defaultRows v (ih maps.2 (fitsRow_defaultRows fit) found later)
      generalize eq : (none : Option (List (List W))) = result at done
      cases step_of_missingPatterns done with
      | never sig => exact absurd here (not_typed_of_never sig)
      | vacant => cases eq
      | opaque_ _ _ found | skipped _ _ _ found | incomplete _ _ _ found => exact byDefault (map_eq_none_iff.mp eq.symm ▸ found)
      | product sig filled looks found =>
        obtain ⟨names, types⟩ := distinct_product maps.1 sig
        obtain ⟨parts, opens⟩ := opens_product sig names here
        have refines := (opening_product sig names).refines
        refine (covers_specialized refines opens fit).mp (ih ?_ (fitsRow_specialized refines fit)
          (map_eq_none_iff.mp eq.symm ▸ found) (rel_append opens.inside later))
        simpa [or_imp, forall_and] using ⟨fun t name mem => types _ mem, maps.2⟩
      | complete sig filled named found =>
        obtain ⟨name, payload, parts, mem, opens⟩ := opens_ctor sig here
        have refines := (opening_ctor sig mem).refines
        refine (covers_specialized refines opens fit).mp (ih ?_ (fitsRow_specialized refines fit)
          (firstHole_none (eq ▸ found) mem) (rel_append opens.inside later))
        have payloads := distinct_ctors maps.1 sig _ mem
        simpa [or_imp, forall_and] using ⟨payloads, maps.2⟩

/-! ## Where something is missing -/

/-- The second type is found inside of the first. -/
def Within (c : Checker) : Ty → Ty → Prop := Relation.ReflTransGen fun t u => u ∈ (c.signatureOf t).parts

/-- Every type inside of it has a value, and is behind no more aliases than are unfolded. -/
structure Plentiful (c : Checker) (t : Ty) : Prop where
  populated : ∀ u, c.Within t u → ∃ v, c.Typed v u
  short : ∀ u, c.Within t u → (c.unfold maxAliasUnfolds (c.resolve u)).isSome = true

theorem Plentiful.part {t u : Ty} (h : c.Plentiful t) (mem : u ∈ (c.signatureOf t).parts) : c.Plentiful u :=
  ⟨fun _ within => h.populated _ (.head mem within), fun _ within => h.short _ (.head mem within)⟩

theorem exists_typed (plenty : ∀ t ∈ tys, c.Plentiful t) : ∃ vs, List.Forall₂ c.Typed vs tys := by
  induction tys with
  | nil => exact ⟨[], .nil⟩
  | cons t tys ih =>
    simp only [forall_mem_cons] at plenty
    obtain ⟨v, here⟩ := plenty.1.populated t .refl
    obtain ⟨vs, rest⟩ := ih plenty.2
    exact ⟨v :: vs, .cons here rest⟩

/-- Values of the types that the shapes describe and that no row accepts. -/
def Escapes (c : Checker) (rows : List (List Pattern)) (tys : List Ty) (w : List Shape) : Prop :=
  ∃ vs, List.Forall₂ c.Typed vs tys ∧ List.Forall₂ Describes w vs ∧ ¬ Covers rows vs

section Escapes

variable {rows : List (List Pattern)} {head : Ty} {rest ts : List Ty} {w : List Shape}
  {special : Pattern → Option (List Pattern)} {build : List Shape → Shape}

theorem escapes_of_specialized (opening : c.Opening special head ts build)
    (fit : ∀ row ∈ rows, c.FitsRow row (head :: rest)) (escapes : c.Escapes (specialized special rows) (ts ++ rest) w) :
    c.Escapes rows (head :: rest) (build (w.take ts.length) :: w.drop ts.length) := by
  obtain ⟨vs, typed, described, uncovered⟩ := escapes
  obtain ⟨v, opens, shown⟩ := opening.make _ (forall₂_take_append _ _ _ typed)
  refine ⟨v :: vs.drop ts.length, .cons opens.typed (forall₂_drop_append _ _ _ typed),
    .cons (shown _ (forall₂_take _ described)) (forall₂_drop _ described), fun covered => uncovered ?_⟩
  rw [← take_append_drop ts.length vs]
  exact (covers_specialized opening.refines opens fit).mpr covered

theorem escapes_of_defaultRows {s : Shape} (typed : c.Typed v head) (described : Describes s v)
    (only : ∀ p ps, p :: ps ∈ rows → accepts p v = true → isWild p = true)
    (fit : ∀ row ∈ rows, c.FitsRow row (head :: rest)) (escapes : c.Escapes (defaultRows rows) rest w) :
    c.Escapes rows (head :: rest) (s :: w) := by
  obtain ⟨vs, later, shown, uncovered⟩ := escapes
  refine ⟨v :: vs, .cons typed later, .cons described shown, fun covered => uncovered ?_⟩
  refine covers_defaultRows only (fun row mem => ?_) covered
  rintro rfl
  cases fit _ mem

end Escapes

/-- **Every witness row describes values that no row accepts.** -/
theorem escapes_of_missingPatterns {rows : List (List Pattern)} {ws : List (List Shape)}
    (maps : ∀ t ∈ tys, t.Distinct) (plenty : ∀ t ∈ tys, c.Plentiful t) (fit : ∀ row ∈ rows, c.FitsRow row tys)
    (done : c.missingPatterns shapes n rows tys = some (some ws)) : ∀ w ∈ ws, c.Escapes rows tys w := by
  induction n generalizing rows tys ws with
  | zero => cases done
  | succ n ih =>
    cases tys with
    | nil =>
      simp only [missingPatterns] at done
      split at done
      · next empty =>
        cases done
        obtain rfl : rows = [] := by simpa using empty
        simpa using ⟨[], .nil, .nil, by simp [Covers]⟩
      · cases done
    | cons head rest =>
      simp only [forall_mem_cons] at maps plenty
      generalize eq : some ws = result at done
      cases step_of_missingPatterns done with
      | never sig => cases eq
      | vacant seen empty =>
        cases eq
        obtain ⟨vs, typed⟩ := exists_typed (forall_mem_cons.mpr plenty)
        have described := describes_anys vs
        rw [typed.length_eq] at described
        simpa [empty] using ⟨vs, typed, described, by simp [Covers]⟩
      | @opaque_ inner sig filled found =>
        obtain ⟨inner, rfl, rfl⟩ := map_eq_some_iff.mp eq.symm
        obtain ⟨v, typed, only⟩ := opaque_value sig (plenty.1.short head .refl) (rows.filterMap List.head?)
        refine List.forall_mem_map.mpr fun w mem => escapes_of_defaultRows typed (by simp [shapes, Describes])
          (fun p ps memRow => only p (mem_filterMap.mpr ⟨_, memRow, rfl⟩) ?_) fit
          (ih maps.2 plenty.2 (fitsRow_defaultRows fit) found w mem)
        exact (forall₂_cons.mp (fit _ memRow)).1
      | @skipped fields kind inner sig filled wild found =>
        obtain ⟨inner, rfl, rfl⟩ := map_eq_some_iff.mp eq.symm
        have parts : ∀ u ∈ fields.map Prod.snd, c.Plentiful u :=
          fun u mem => plenty.1.part (by rw [sig]; exact mem)
        obtain ⟨vs, typed⟩ := exists_typed parts
        obtain ⟨v, opens, shown⟩ := (opening_product sig (distinct_product maps.1 sig).1).make vs typed
        have described := shown _ (describes_anys vs)
        rw [typed.length_eq] at described
        refine List.forall_mem_map.mpr fun w mem => ?_
        have escapes := escapes_of_defaultRows opens.typed described (fun p ps mem _ => wild _ mem) fit
          (ih maps.2 plenty.2 (fitsRow_defaultRows fit) found w mem)
        rw [product_shapes]
        simpa [shapes] using escapes
      | @product fields kind inner sig filled looks found =>
        obtain ⟨inner, rfl, rfl⟩ := map_eq_some_iff.mp eq.symm
        obtain ⟨names, types⟩ := distinct_product maps.1 sig
        have opening := opening_product sig names
        refine List.forall_mem_map.mpr fun w mem => ?_
        have escapes := escapes_of_specialized opening fit (ih ?_ ?_
          (fitsRow_specialized opening.refines fit) found w mem)
        · rw [product_shapes]
          simpa using escapes
        · simpa [or_imp, forall_and] using ⟨fun t name mem => types _ mem, maps.2⟩
        · exact forall_mem_append.mpr ⟨fun u mem => plenty.1.part (by rw [sig]; exact mem), plenty.2⟩
      | @complete variants inner sig filled named found =>
        obtain ⟨v, memVariant, inside, searched, rfl⟩ := firstHole_some (eq ▸ found)
        have opening := opening_ctor sig memVariant
        refine List.forall_mem_map.mpr fun w mem => ?_
        have escapes := escapes_of_specialized opening fit (ih ?_ ?_
          (fitsRow_specialized opening.refines fit) searched w mem)
        · simpa [Render.variant, shapes] using escapes
        · have payloads := distinct_ctors maps.1 sig _ memVariant
          simpa [or_imp, forall_and] using ⟨payloads, maps.2⟩
        · refine forall_mem_append.mpr ⟨fun u mem => plenty.1.part ?_, plenty.2⟩
          rw [sig]
          exact mem_filterMap.mpr ⟨v, memVariant, by simpa using mem⟩
      | @incomplete variants inner sig filled unnamed found =>
        obtain ⟨inner, rfl, rfl⟩ := map_eq_some_iff.mp eq.symm
        intro row memRow
        obtain ⟨v, memVariant, memRow⟩ := mem_flatMap.mp (mem_of_mem_take memRow)
        obtain ⟨w, mem, rfl⟩ := List.mem_map.mp memRow
        obtain ⟨memVariant, absent⟩ := mem_filter.mp memVariant
        have parts : ∀ u ∈ v.2.toList, c.Plentiful u := by
          refine fun u mem => plenty.1.part ?_
          rw [sig]
          exact mem_filterMap.mpr ⟨v, memVariant, by simpa using mem⟩
        obtain ⟨vs, typed⟩ := exists_typed parts
        obtain ⟨value, opens, shown⟩ := (opening_ctor sig memVariant).make vs typed
        have described := shown _ (describes_anys vs)
        refine escapes_of_defaultRows opens.typed ?_ ?_ fit
          (ih maps.2 plenty.2 (fitsRow_defaultRows fit) found w mem)
        · rw [typed.length_eq] at described
          cases payload : v.2 <;> simpa [payload, shapes] using described
        · intro p ps memRow accepted
          obtain ⟨sub, special, -⟩ := (opens.alike p (forall₂_cons.mp (fit _ memRow)).1).mp accepted
          rcases headCtor_of_specializeCtor special with wild | named
          · exact wild
          · have present : v.1 ∈ present rows := mem_filterMap.mpr ⟨_, memRow, named⟩
            simp [present] at absent

end Checker

end LexLang.Types
