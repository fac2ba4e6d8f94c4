/-
# LexLang.Types.PatternOpening — values and patterns are opened alike

A column is replaced by the columns of what is inside: the constructor's payload, the items, the fields. A row accepts
a value and the rest if and only if the specialised row accepts what is inside of the value and the rest.
-/
import LexLang.Types.MatchedValues

namespace LexLang.Types

open LexLang.Ast (Pattern CLit)
open Bool List Option

/-! ## Acceptance -/

@[simp] theorem acceptsAll_nil (vs : List Val) : acceptsAll [] vs = true := by cases vs <;> rfl

@[simp] theorem acceptsAll_cons (p : Pattern) (ps : List Pattern) (v : Val) (vs : List Val) :
    acceptsAll (p :: ps) (v :: vs) = (accepts p v && acceptsAll ps vs) := by
  simp only [acceptsAll]

variable {p : Pattern}

theorem accepts_of_isWild (wild : isWild p = true) (v : Val) : accepts p v = true := by
  cases p <;> first | rfl | cases wild

@[simp] theorem accepts_wild (v : Val) : accepts .pWild v = true := accepts_of_isWild rfl v

variable {ps : List Pattern} {vs : List Val}

theorem acceptsAll_append (same : ps.length = vs.length) (qs : List Pattern)
    (ws : List Val) : acceptsAll (ps ++ qs) (vs ++ ws) = (acceptsAll ps vs && acceptsAll qs ws) := by
  induction ps generalizing vs with
  | nil =>
    obtain rfl := length_eq_zero_iff.mp same.symm
    simp
  | cons p ps ih =>
    obtain ⟨v, vs, rfl⟩ := exists_cons_of_length_eq_add_one same.symm
    simp only [length_cons, Nat.add_right_cancel_iff] at same
    simp [ih same, Bool.and_assoc]

theorem acceptsAll_wilds {α : Type} {fields : List α} (same : fields.length = vs.length) :
    acceptsAll (fields.map fun _ => .pWild) vs = true := by
  induction fields generalizing vs with
  | nil => simp
  | cons f fields ih =>
    obtain ⟨v, vs, rfl⟩ := exists_cons_of_length_eq_add_one same.symm
    exact ih (by simpa using same)

/-! ## Matrices -/

variable {rows : List (List Pattern)}

theorem mem_specialized {special : Pattern → Option (List Pattern)} {row : List Pattern} :
    row ∈ specialized special rows ↔ ∃ p ps sub, p :: ps ∈ rows ∧ special p = some sub ∧ row = sub ++ ps := by
  simp only [specialized, mem_filterMap]
  constructor
  · rintro ⟨_ | ⟨p, ps⟩, mem, eq⟩
    · cases eq
    · obtain ⟨sub, found, rfl⟩ := map_eq_some_iff.mp eq
      exact ⟨p, ps, sub, mem, found, rfl⟩
  · rintro ⟨p, ps, sub, mem, found, rfl⟩
    exact ⟨p :: ps, mem, by simp [found]⟩

theorem mem_defaultRows {row : List Pattern} :
    row ∈ defaultRows rows ↔ ∃ p, p :: row ∈ rows ∧ isWild p = true := by
  simp only [defaultRows, mem_filterMap]
  constructor
  · rintro ⟨_ | ⟨p, ps⟩, mem, eq⟩
    · cases eq
    · by_cases wild : isWild p = true
      · simp only [wild, if_true, some.injEq] at eq
        exact ⟨p, eq ▸ mem, wild⟩
      · simp [wild] at eq
  · rintro ⟨p, mem, wild⟩
    exact ⟨p :: row, mem, by simp [wild]⟩

theorem covers_of_defaultRows (v : Val) (covered : Covers (defaultRows rows) vs) : Covers rows (v :: vs) := by
  obtain ⟨row, mem, accepted⟩ := covered
  obtain ⟨p, mem, wild⟩ := mem_defaultRows.mp mem
  exact ⟨p :: row, mem, by simp [accepts_of_isWild wild, accepted]⟩

variable {v : Val}

theorem covers_defaultRows
    (only : ∀ p ps, p :: ps ∈ rows → accepts p v = true → isWild p = true) (filled : ∀ row ∈ rows, row ≠ [])
    (covered : Covers rows (v :: vs)) : Covers (defaultRows rows) vs := by
  obtain ⟨_ | ⟨p, ps⟩, mem, accepted⟩ := covered
  · exact absurd rfl (filled _ mem)
  · simp only [acceptsAll_cons, and_eq_true] at accepted
    exact ⟨ps, mem_defaultRows.mpr ⟨p, mem, only p ps mem accepted.1⟩, accepted.2⟩

namespace Checker

variable {c : Checker}

/-! ## Aliases -/

theorem unfold_mono {n m : Nat} (le : n ≤ m) {t t' : Ty} (done : c.unfold n t = some t') : c.unfold m t = some t' := by
  induction n generalizing m t with
  | zero =>
    simp only [unfold] at done
    split at done
    · cases done
    · next last =>
      have ends : c.aliasOf t = none := by simpa using last
      cases m with
      | zero => simpa [unfold, ends] using done
      | succ m =>
        simpa [unfold, ends] using done
  | succ n ih =>
    obtain ⟨m, rfl⟩ : ∃ k, m = k + 1 := ⟨m - 1, by omega⟩
    simp only [unfold] at done ⊢
    cases alias_ : c.aliasOf t with
    | none => simpa [alias_] using done
    | some inner =>
      simp only [alias_] at done ⊢
      exact ih (by omega) done

theorem Exposes.unique {t a b : Ty} (left : c.Exposes t a) (right : c.Exposes t b) : a = b := by
  obtain ⟨n, left⟩ := left
  obtain ⟨m, right⟩ := right
  have := unfold_mono (Nat.le_max_left n m) left
  rw [unfold_mono (Nat.le_max_right n m) right] at this
  exact (some.inj this).symm

theorem exposes_self {t : Ty} (ends : c.aliasOf (c.resolve t) = none) : c.Exposes t (c.resolve t) :=
  ⟨0, by simp [unfold, ends]⟩

theorem exposes_tuple (items : List Ty) : c.Exposes (.tuple items) (.tuple (items.map c.resolve)) := by
  have eq : c.resolve (.tuple items) = .tuple (items.map c.resolve) := by
    simp only [resolve, Ty.subst, Ty.substAll_eq_map]
    rfl
  exact eq ▸ exposes_self (by rw [eq]; rfl)

@[simp] theorem exposes_resolve {t t' : Ty} : c.Exposes (c.resolve t) t' ↔ c.Exposes t t' := by
  simp only [Exposes, resolve, c.settled]

/-! ## Values of a known type -/

theorem typed_resolve {t : Ty} : c.Typed v (c.resolve t) ↔ c.Typed v t := by
  have back : ∀ {s t : Ty}, (∀ t', c.Exposes s t' → c.Exposes t t') → c.Typed v s → c.Typed v t := by
    intro s t exposes typed
    cases typed with
    | literal value exposed => exact .literal value (exposes _ exposed)
    | tuple exposed parts => exact .tuple (exposes _ exposed) parts
    | record exposed parts => exact .record (exposes _ exposed) parts
    | constant exposed declared arity mem => exact .constant (exposes _ exposed) declared arity mem
    | variant exposed declared arity mem parts => exact .variant (exposes _ exposed) declared arity mem parts
    | unseen v exposed unseen => exact .unseen v (exposes _ exposed) unseen
  exact ⟨back fun _ => exposes_resolve.mp, back fun _ => exposes_resolve.mpr⟩

/-- The arguments that the constructor of a variant is called with. -/
def arguments (targs : List Ty) (payload : Option Ty) : List Ty :=
  payload.elim [] fun payload => payload.arguments.map (Ty.instantiate targs)

/-- What a value looks like, by the type that is exposed. -/
def Looks (c : Checker) : Ty → Val → Prop
  | .tuple ts, v => ∃ vs, v = .tuple vs ∧ Forall₂ c.Typed vs ts
  | .record fields, v =>
    ∃ vs, v = .record ((fields.map Prod.fst).zip vs) ∧ Forall₂ c.Typed vs (fields.map Prod.snd)
  | .unit, v => v = .literal .unit
  | .prim p, v => ∃ value, v = .literal value ∧ litType value = .prim p
  | .never, _ => False
  | .con owner targs, v =>
    (∃ params variants name payload vs, c.typeEnv.types owner = some ⟨params, .union variants⟩ ∧
      (name, payload) ∈ variants ∧ v = .variant name vs ∧ Forall₂ c.Typed vs (arguments targs payload)) ∨
      c.Unseen (.con owner targs)
  | _, _ => True

theorem Typed.looks {t t' : Ty} (typed : c.Typed v t) (exposed : c.Exposes t t') : c.Looks t' v := by
  cases typed with
  | literal value found =>
    cases exposed.unique found
    cases value <;> simp [Looks, litType]
  | tuple found parts | record found parts =>
    cases exposed.unique found
    exact ⟨_, rfl, parts⟩
  | constant found declared arity mem =>
    cases exposed.unique found
    exact .inl ⟨_, _, _, _, _, declared, mem, rfl, .nil⟩
  | variant found declared arity mem parts =>
    cases exposed.unique found
    exact .inl ⟨_, _, _, _, _, declared, mem, rfl, parts⟩
  | unseen v found unseen =>
    cases exposed.unique found
    cases t' <;> first | trivial | exact .inr unseen

theorem typed_union {t : Ty} {owner : String} {targs : List Ty} {params : List String}
    {variants : List (String × Option Ty)} (exposed : c.Exposes t (.con owner targs))
    (declared : c.typeEnv.types owner = some ⟨params, .union variants⟩) (arity : params.length = targs.length)
    (typed : c.Typed v t) : ∃ name payload vs, (name, payload) ∈ variants ∧ v = .variant name vs ∧
      Forall₂ c.Typed vs (arguments targs payload) := by
  rcases typed.looks exposed with ⟨_, _, name, payload, vs, declared', rest⟩ | unseen
  · cases declared.symm.trans declared'
    exact ⟨name, payload, vs, rest⟩
  · simp [Unseen, classify, declared, arity] at unseen

theorem typed_variant {t : Ty} {owner name : String} {targs : List Ty} {params : List String}
    {variants : List (String × Option Ty)} {payload : Option Ty} (exposed : c.Exposes t (.con owner targs))
    (declared : c.typeEnv.types owner = some ⟨params, .union variants⟩) (arity : params.length = targs.length)
    (mem : (name, payload) ∈ variants) (parts : Forall₂ c.Typed vs (arguments targs payload)) :
    c.Typed (.variant name vs) t := by
  cases payload with
  | none =>
    cases parts
    exact .constant exposed declared arity mem
  | some payload => exact .variant exposed declared arity mem parts

/-! ## Patterns that fit -/

/-- The pattern stands at the type, and is tested as it is checked. -/
def Fits (c : Checker) (p : Pattern) (t : Ty) : Prop := c.WellTyped p t ∧ c.Plain p

/-- The pattern stands at every type that is the same for it. -/
theorem wellTyped_congr {s t : Ty} (exposes : ∀ t', c.Exposes s t' → c.Exposes t t')
    (typed : c.WellTyped p s) : c.WellTyped p t := by
  cases p with
  | pWild => simp [WellTyped]
  | pVar name => simp [WellTyped]
  | pLiteral value => simpa [WellTyped] using exposes _ (by simpa [WellTyped] using typed)
  | pConstructor name args =>
    obtain ⟨owner, td, targs, owned, declared, arity, exposed, rest⟩ := typed
    exact ⟨owner, td, targs, owned, declared, arity, exposes _ exposed, rest⟩
  | pRecord fields =>
    obtain ⟨fts, exposed, rest⟩ := typed
    exact ⟨fts, exposes _ exposed, rest⟩
  | pTuple items =>
    cases items with
    | nil => simpa [WellTyped] using exposes _ (by simpa [WellTyped] using typed)
    | cons item items =>
      obtain ⟨ts, exposed, rest⟩ := typed
      exact ⟨ts, exposes _ exposed, rest⟩

theorem wellTyped_resolve {t : Ty} : c.WellTyped p (c.resolve t) ↔ c.WellTyped p t :=
  ⟨wellTyped_congr fun _ => exposes_resolve.mp, wellTyped_congr fun _ => exposes_resolve.mpr⟩

theorem wellTypedFirst_iff {ts : List Ty} (same : ps.length = ts.length) :
    c.WellTypedFirst ps ts ↔ Forall₂ c.WellTyped ps ts := by
  induction ps generalizing ts with
  | nil =>
    obtain rfl := length_eq_zero_iff.mp same.symm
    simp [WellTypedFirst]
  | cons p ps ih =>
    obtain ⟨t, ts, rfl⟩ := exists_cons_of_length_eq_add_one same.symm
    simp [WellTypedFirst, ih (by simpa using same)]

variable {fields : List (String × Pattern)}

theorem wellTypedFields_iff {fts : List (String × Ty)} :
    c.WellTypedFields fields fts ↔ ∀ field ∈ fields, ∃ t, fts.lookup field.1 = some t ∧ c.WellTyped field.2 t := by
  induction fields with
  | nil => simp [WellTypedFields]
  | cons field fields ih => simp [WellTypedFields, ih]

theorem plainAll_iff : c.PlainAll ps ↔ ∀ p ∈ ps, c.Plain p := by
  induction ps with
  | nil => simp [PlainAll]
  | cons p ps ih => simp [PlainAll, ih]

theorem plainFields_iff :
    c.PlainFields fields ↔ ∀ field ∈ fields, c.Plain field.2 := by
  induction fields with
  | nil => simp [PlainFields]
  | cons field fields ih => simp [PlainFields, ih]

theorem acceptsFields_iff {parts : List (String × Val)} :
    acceptsFields fields parts = true ↔
      ∀ field ∈ fields, ∃ v, parts.lookup field.1 = some v ∧ accepts field.2 v = true := by
  induction fields with
  | nil => simp [acceptsFields]
  | cons field fields ih => cases found : parts.lookup field.1 <;> simp [acceptsFields, found, ih]

theorem fits_wild (t : Ty) : c.Fits .pWild t := ⟨by simp [WellTyped], by simp [Plain]⟩

theorem fits_wilds {α : Type} (f : α → Ty) (l : List α) : Forall₂ c.Fits (l.map fun _ => .pWild) (l.map f) := by
  induction l with
  | nil => exact .nil
  | cons a l ih => exact .cons (fits_wild _) ih

/-! ## Opening -/

/-- What a pattern is specialised to stands at the types of the parts. -/
def Refines (c : Checker) (special : Pattern → Option (List Pattern)) (t : Ty) (ts : List Ty) : Prop :=
  ∀ p sub, c.Fits p t → special p = some sub → Forall₂ c.Fits sub ts

/-- **The value opens into the parts as the patterns do**: a pattern accepts it if what the pattern is specialised to
accepts the parts. -/
structure Opens (c : Checker) (special : Pattern → Option (List Pattern)) (t : Ty) (ts : List Ty) (v : Val)
    (parts : List Val) : Prop where
  typed : c.Typed v t
  inside : Forall₂ c.Typed parts ts
  alike : ∀ p, c.Fits p t → (accepts p v = true ↔ ∃ sub, special p = some sub ∧ acceptsAll sub parts = true)

section Rows

variable {special : Pattern → Option (List Pattern)} {t : Ty} {ts tys : List Ty} {rows : List (List Pattern)}
  {v : Val} {parts vs : List Val}

/-- The row stands at the types of the columns. -/
def FitsRow (c : Checker) (row : List Pattern) (tys : List Ty) : Prop := Forall₂ c.Fits row tys

theorem fitsRow_specialized (refines : c.Refines special t ts) (fit : ∀ row ∈ rows, c.FitsRow row (t :: tys)) :
    ∀ row ∈ specialized special rows, c.FitsRow row (ts ++ tys) := by
  intro row memRow
  obtain ⟨p, ps, sub, mem, found, rfl⟩ := mem_specialized.mp memRow
  obtain ⟨here, rest⟩ := forall₂_cons.mp (fit _ mem)
  exact rel_append (refines p sub here found) rest

theorem fitsRow_defaultRows (fit : ∀ row ∈ rows, c.FitsRow row (t :: tys)) :
    ∀ row ∈ defaultRows rows, c.FitsRow row tys := by
  intro row mem
  obtain ⟨p, mem, -⟩ := mem_defaultRows.mp mem
  exact (forall₂_cons.mp (fit _ mem)).2

/-- **The specialised rows cover the parts and the rest if and only if the rows cover the value and the rest.** -/
theorem covers_specialized (refines : c.Refines special t ts) (opens : c.Opens special t ts v parts)
    (fit : ∀ row ∈ rows, c.FitsRow row (t :: tys)) :
    Covers (specialized special rows) (parts ++ vs) ↔ Covers rows (v :: vs) := by
  have same : ∀ p sub, c.Fits p t → special p = some sub → sub.length = parts.length := by
    intro p sub here found
    rw [(refines p sub here found).length_eq, opens.inside.length_eq]
  constructor
  · rintro ⟨row, memRow, accepted⟩
    obtain ⟨p, ps, sub, mem, found, rfl⟩ := mem_specialized.mp memRow
    obtain ⟨here, -⟩ := forall₂_cons.mp (fit _ mem)
    rw [acceptsAll_append (same p sub here found), and_eq_true] at accepted
    have open_ := (opens.alike p here).mpr ⟨sub, found, accepted.1⟩
    exact ⟨p :: ps, mem, by simp [open_, accepted.2]⟩
  · rintro ⟨row, mem, accepted⟩
    have fits := fit row mem
    cases fits with
    | cons here rest =>
      rename_i p ps
      simp only [acceptsAll_cons, and_eq_true] at accepted
      obtain ⟨sub, found, inner⟩ := (opens.alike p here).mp accepted.1
      refine ⟨sub ++ ps, mem_specialized.mpr ⟨p, ps, sub, mem, found, rfl⟩, ?_⟩
      rw [acceptsAll_append (same p sub here found), inner, accepted.2, Bool.and_self]

end Rows

/-! ## Tuples and records -/

section Products

variable {t : Ty} {ts : List Ty} {fields : List (String × Ty)} {vs : List Val}

theorem refines_tuple (exposed : c.Exposes t (.tuple ts)) (types : fields.map Prod.snd = ts) :
    c.Refines (specializeProduct · fields .tuple) t ts := by
  intro p sub fits found
  subst types
  cases p with
  | pWild | pVar name =>
    simp only [specializeProduct, isWild, if_true, some.injEq] at found
    exact found ▸ fits_wilds _ _
  | pTuple items =>
    simp only [specializeProduct, isWild, false_eq_true, if_false, ite_none_right_eq_some,
      some.injEq] at found
    obtain ⟨same, rfl⟩ := found
    have plain := plainAll_iff.mp (by simpa [Plain] using fits.2)
    cases items with
    | nil =>
      obtain rfl := length_eq_zero_iff.mp same.symm
      exact .nil
    | cons item items =>
      have typed := fits.1
      obtain ⟨ts, exposed', same', first⟩ := typed
      cases exposed'.unique exposed
      have typed := (wellTypedFirst_iff same').mp first
      exact forall₂_iff_get.mpr ⟨same', fun i h h' => ⟨typed.get h h', plain _ (List.get_mem _ _)⟩⟩
  | _ => simp [specializeProduct, isWild] at found

theorem opens_tuple (exposed : c.Exposes t (.tuple ts)) (types : fields.map Prod.snd = ts)
    (parts : Forall₂ c.Typed vs ts) : c.Opens (specializeProduct · fields .tuple) t ts (.tuple vs) vs := by
  have same : fields.length = vs.length := by
    rw [parts.length_eq, ← types, length_map]
  refine ⟨.tuple exposed parts, parts, fun p fits => ?_⟩
  have typed := fits.1
  cases p with
  | pWild | pVar name => exact iff_of_true (accepts_of_isWild rfl _) ⟨_, rfl, acceptsAll_wilds same⟩
  | pTuple items =>
    cases items with
    | nil => cases Exposes.unique (by simpa [WellTyped] using typed) exposed
    | cons item items =>
      obtain ⟨ts', exposed', same', -⟩ := typed
      cases exposed'.unique exposed
      have arity : (item :: items).length = fields.length := by rw [same', ← types, length_map]
      simp only [accepts, specializeProduct, isWild, false_eq_true, if_false, arity, if_true,
        some.injEq, exists_eq_left']
  | pLiteral value =>
    cases value <;> cases Exposes.unique (by simpa [WellTyped] using typed) exposed
  | pConstructor name args =>
    obtain ⟨owner, td, targs, -, -, -, exposed', -⟩ := typed
    cases exposed'.unique exposed
  | pRecord pfs =>
    obtain ⟨fts, exposed', -⟩ := typed
    cases exposed'.unique exposed

/-- The pattern of the field, or a wildcard. -/
def fieldPattern (pfs : List (String × Pattern)) (f : String × Ty) : Pattern := (pfs.lookup f.1).getD .pWild

theorem refines_record (exposed : c.Exposes t (.record fields)) (distinct : (fields.map Prod.fst).Nodup) :
    c.Refines (specializeProduct · fields .record) t (fields.map Prod.snd) := by
  intro p sub fits found
  cases p with
  | pWild | pVar name =>
    simp only [specializeProduct, isWild, if_true, some.injEq] at found
    exact found ▸ fits_wilds _ _
  | pRecord pfs =>
    simp only [specializeProduct, isWild, false_eq_true, if_false, some.injEq] at found
    subst found
    obtain ⟨typed, plain⟩ := fits
    simp only [WellTyped, wellTypedFields_iff] at typed
    simp only [Plain, plainFields_iff] at plain
    obtain ⟨fts, exposed', typed⟩ := typed
    cases exposed'.unique exposed
    refine forall₂_map_left_iff.mpr (forall₂_map_right_iff.mpr (forall₂_same.mpr fun f mem => ?_))
    cases named : pfs.lookup f.1 with
    | none => exact fits_wild _
    | some q =>
      have memPattern := Ty.mem_of_lookup named
      obtain ⟨u, declared, here⟩ := typed _ memPattern
      rw [Ty.lookup_of_mem distinct mem] at declared
      cases declared
      exact ⟨here, plain.2 _ memPattern⟩
  | _ => simp [specializeProduct, isWild] at found

theorem acceptsAll_map_iff (g : String × Ty → Pattern) (same : fields.length = vs.length) :
    acceptsAll (fields.map g) vs = true ↔ ∀ x ∈ fields.zip vs, accepts (g x.1) x.2 = true := by
  induction fields generalizing vs with
  | nil => simp
  | cons f fields ih =>
    obtain ⟨v, vs, rfl⟩ := exists_cons_of_length_eq_add_one same.symm
    simp [ih (by simpa using same)]

theorem lookup_zip_iff (distinct : (fields.map Prod.fst).Nodup) (same : fields.length = vs.length) {f : String × Ty}
    (mem : f ∈ fields) : ((fields.map Prod.fst).zip vs).lookup f.1 = some v ↔ (f, v) ∈ fields.zip vs := by
  have names : ((fields.map Prod.fst).zip vs).map Prod.fst = fields.map Prod.fst := by
    rw [map_fst_zip (by simp [same])]
  have field : ∀ w, (f.1, w) ∈ (fields.map Prod.fst).zip vs ↔ (f, w) ∈ fields.zip vs := by
    intro w
    rw [zip_map_left, List.mem_map]
    constructor
    · rintro ⟨⟨g, w'⟩, memZip, eq⟩
      simp only [Prod.map_apply, Prod.mk.injEq] at eq
      obtain ⟨eq, rfl⟩ := eq
      obtain rfl : g = f := inj_on_of_nodup_map distinct (of_mem_zip memZip).1 mem eq
      exact memZip
    · exact fun memZip => ⟨_, memZip, rfl⟩
  rw [← field]
  exact ⟨Ty.mem_of_lookup, fun memZip => Ty.lookup_of_mem (by rw [names]; exact distinct) memZip⟩

theorem accepts_record (pfs : List (String × Pattern)) (parts : List (String × Val)) :
    accepts (.pRecord pfs) (.record parts) = acceptsFields pfs parts := by
  cases pfs <;> simp [accepts, acceptsFields]

theorem opens_record (exposed : c.Exposes t (.record fields)) (distinct : (fields.map Prod.fst).Nodup)
    (parts : Forall₂ c.Typed vs (fields.map Prod.snd)) :
    c.Opens (specializeProduct · fields .record) t (fields.map Prod.snd)
      (.record ((fields.map Prod.fst).zip vs)) vs := by
  have same : fields.length = vs.length := by rw [parts.length_eq, length_map]
  refine ⟨.record exposed parts, parts, fun p fits => ?_⟩
  obtain ⟨typed, plain⟩ := fits
  cases p with
  | pWild | pVar name => exact iff_of_true (accepts_of_isWild rfl _) ⟨_, rfl, acceptsAll_wilds same⟩
  | pRecord pfs =>
    simp only [WellTyped, wellTypedFields_iff] at typed
    obtain ⟨fts, exposed', typed⟩ := typed
    cases exposed'.unique exposed
    have special : specializeProduct (.pRecord pfs) fields .record = some (fields.map (fieldPattern pfs)) := rfl
    rw [accepts_record, special, acceptsFields_iff]
    simp only [some.injEq, exists_eq_left', acceptsAll_map_iff _ same]
    constructor
    · rintro all ⟨f, v⟩ memZip
      have mem := (of_mem_zip memZip).1
      cases named : pfs.lookup f.1 with
      | none => simp [fieldPattern, named]
      | some q =>
        obtain ⟨w, found, accepted⟩ := all _ (Ty.mem_of_lookup named)
        rw [(lookup_zip_iff distinct same mem).mpr memZip] at found
        cases found
        simpa [fieldPattern, named] using accepted
    · intro all pf memPattern
      obtain ⟨u, declared, -⟩ := typed pf memPattern
      have mem := Ty.mem_of_lookup declared
      obtain ⟨v, memZip⟩ : ∃ v, ((pf.1, u), v) ∈ fields.zip vs := by
        obtain ⟨i, h, eq⟩ := getElem_of_mem mem
        exact ⟨vs.get ⟨i, same ▸ h⟩, mem_iff_getElem.mpr ⟨i, by simp [← same, h], by simp [eq]⟩⟩
      refine ⟨v, (lookup_zip_iff distinct same mem).mpr memZip, ?_⟩
      rcases plain.1 pf memPattern with wild | first
      · exact accepts_of_isWild wild v
      · have accepted := all _ memZip
        simpa [fieldPattern, first] using accepted
  | pLiteral value =>
    cases value <;> cases Exposes.unique (by simpa [WellTyped] using typed) exposed
  | pConstructor name args =>
    obtain ⟨owner, td, targs, -, -, -, exposed', -⟩ := typed
    cases exposed'.unique exposed
  | pTuple items =>
    cases items with
    | nil => cases Exposes.unique (by simpa [WellTyped] using typed) exposed
    | cons item items =>
      obtain ⟨ts', exposed', -⟩ := typed
      cases exposed'.unique exposed

end Products

/-! ## Constructors -/

section Constructors

variable {t : Ty} {owner name : String} {targs : List Ty} {params : List String} {variants : List (String × Option Ty)}
  {payload : Ty} {x : Val} {vs : List Val}

theorem refines_constant (name : String) (t : Ty) : c.Refines (specializeCtor · name false) t [] := by
  intro p sub _ found
  suffices sub = [] by simp [this]
  cases p with
  | pLiteral value => cases value <;> simp_all [specializeCtor, isWild]
  | pTuple items => cases items <;> simp_all [specializeCtor, isWild]
  | _ => simp_all [specializeCtor, isWild]

/-- The literals that are constructors. -/
theorem opens_literal {value : CLit} (head : headCtor (.pLiteral value) = some name)
    (exposed : c.Exposes t (litType value)) : c.Opens (specializeCtor · name false) t [] (.literal value) [] := by
  refine ⟨.literal value exposed, .nil, fun p fits => ?_⟩
  have typed := fits.1
  cases p with
  | pWild | pVar name => exact iff_of_true (accepts_of_isWild rfl _) ⟨_, rfl, rfl⟩
  | pLiteral other =>
    have eq := exposed.unique (by simpa [WellTyped] using typed)
    cases value <;> cases other <;>
      simp_all [headCtor, litType, accepts, specializeCtor, isWild, Compiler.CLit.encoded]
    subst head
    rename_i b b'
    cases b <;> cases b' <;> simp [boolCtor]
  | pTuple items =>
    cases items with
    | nil =>
      have eq := exposed.unique (by simpa [WellTyped] using typed)
      cases value <;> simp_all [headCtor, litType, accepts, specializeCtor]
    | cons item items =>
      obtain ⟨ts', exposed', -⟩ := typed
      cases value <;> cases exposed'.unique exposed
  | pConstructor name args =>
    obtain ⟨owner, td, targs, -, -, -, exposed', -⟩ := typed
    cases value <;> cases exposed'.unique exposed
  | pRecord pfs =>
    obtain ⟨fts, exposed', -⟩ := typed
    cases value <;> cases exposed'.unique exposed

/-- The arguments of a constructor beside the payload that they make. -/
def Packs (payload : Ty) (vs : List Val) (x : Val) : Prop :=
  (payload.arguments = [payload] ∧ vs = [x]) ∨
    ∃ items, payload = .tuple items ∧ items.length ≠ 1 ∧ payload.arguments = items ∧ x = .tuple vs

theorem arguments_cases (payload : Ty) : payload.arguments = [payload] ∨
      ∃ items, payload = .tuple items ∧ items.length ≠ 1 ∧ payload.arguments = items := by
  cases payload with
  | tuple items =>
    by_cases one : items.length = 1
    · exact .inl (by simp [Ty.arguments, one])
    · exact .inr ⟨items, rfl, one, by simp [Ty.arguments, one]⟩
  | _ => exact .inl rfl

theorem instantiate_tuple (items : List Ty) :
    (Ty.tuple items).instantiate targs = .tuple (items.map (Ty.instantiate targs)) := by
  simp only [Ty.instantiate, Ty.subst, Ty.substAll_eq_map]
  rfl

theorem typed_all_resolve {ts : List Ty} :
    Forall₂ c.Typed vs (ts.map c.resolve) ↔ Forall₂ c.Typed vs ts := by
  rw [forall₂_map_right_iff]
  exact ⟨fun h => h.imp fun _ _ => typed_resolve.mp, fun h => h.imp fun _ _ => typed_resolve.mpr⟩

theorem packs_of_arguments (parts : Forall₂ c.Typed vs (payload.arguments.map (Ty.instantiate targs))) :
    ∃ x, Packs payload vs x ∧ c.Typed x (payload.instantiate targs) := by
  rcases arguments_cases payload with one | ⟨items, rfl, many, eq⟩
  · rw [one] at parts
    obtain ⟨x, rest, here, last, rfl⟩ := forall₂_cons_right_iff.mp parts
    cases last
    exact ⟨x, .inl ⟨one, rfl⟩, here⟩
  · rw [eq] at parts
    refine ⟨.tuple vs, .inr ⟨items, rfl, many, eq, rfl⟩, ?_⟩
    rw [instantiate_tuple]
    exact .tuple (exposes_tuple _) (typed_all_resolve.mpr parts)

theorem packs_of_payload (typed : c.Typed x (payload.instantiate targs)) :
    ∃ vs, Packs payload vs x ∧ Forall₂ c.Typed vs (payload.arguments.map (Ty.instantiate targs)) := by
  rcases arguments_cases payload with one | ⟨items, rfl, many, eq⟩
  · exact ⟨[x], .inl ⟨one, rfl⟩, by simpa [one] using typed⟩
  · rw [instantiate_tuple] at typed
    obtain ⟨vs, rfl, parts⟩ := typed.looks (exposes_tuple _)
    exact ⟨vs, .inr ⟨items, rfl, many, eq, rfl⟩, by rw [eq]; exact typed_all_resolve.mp parts⟩

theorem acceptsAll_payload {args : List Pattern} (packs : Packs payload vs x)
    (count : vs.length = payload.arguments.length) (plain : args = [] ∨ args.length = payload.arguments.length ∨
      ∃ p, args = [p] ∧ isWild p = true ∧ 0 < payload.arguments.length) :
    acceptsAll args vs = accepts (ctorPayloadPattern args) x := by
  rcases args with _ | ⟨p, _ | ⟨q, rest⟩⟩
  · simp [ctorPayloadPattern]
  · rcases packs with ⟨one, rfl⟩ | ⟨items, rfl, many, eq, rfl⟩
    · simp [ctorPayloadPattern]
    · rcases plain with none | same | ⟨p', only, wild, pos⟩
      · cases none
      · exact absurd (eq ▸ same).symm many
      · cases only
        obtain ⟨v, vs, rfl⟩ := exists_cons_of_length_pos (count ▸ pos)
        simp [ctorPayloadPattern, accepts_of_isWild wild]
  · rcases packs with ⟨one, rfl⟩ | ⟨items, rfl, many, eq, rfl⟩
    · rw [one] at plain
      simp at plain
    · simp [ctorPayloadPattern, accepts]

/-- No other pattern stands at a declared type. -/
theorem constructor_of_wellTyped (exposed : c.Exposes t (.con owner targs)) (typed : c.WellTyped p t) :
    isWild p = true ∨ ∃ name args, p = .pConstructor name args := by
  cases p with
  | pWild | pVar name => exact .inl rfl
  | pConstructor name args => exact .inr ⟨name, args, rfl⟩
  | pLiteral value =>
    cases value <;> cases Exposes.unique (by simpa [WellTyped] using typed) exposed
  | pRecord pfs =>
    obtain ⟨fts, exposed', -⟩ := typed
    cases exposed'.unique exposed
  | pTuple items =>
    cases items with
    | nil => cases Exposes.unique (by simpa [WellTyped] using typed) exposed
    | cons item items =>
      obtain ⟨ts', exposed', -⟩ := typed
      cases exposed'.unique exposed

section Union

variable (exposed : c.Exposes t (.con owner targs))
  (declared : c.typeEnv.types owner = some ⟨params, .union variants⟩) (arity : params.length = targs.length)

include declared

theorem lookup_variant {payload : Option Ty} (mem : (name, payload) ∈ variants) :
    TypeDef.payload ⟨params, .union variants⟩ name = payload := by
  have proper := (c.proper _ _ declared).1
  simp [TypeDef.payload, Ty.lookup_of_mem proper mem]

include exposed

/-- What a constructor pattern of the union is known by. -/
theorem fits_constructor {payload : Option Ty} (mem : (name, payload) ∈ variants) {args : List Pattern}
    (fits : c.Fits (.pConstructor name args) t) :
    (∀ p ∈ args, c.Plain p) ∧
      match payload with
      | none => args = []
      | some payload =>
        c.WellTypedFirst args ((payload.boundTo args.length).map (Ty.instantiate targs)) ∧
          (args = [] ∨ args.length = payload.arguments.length ∨
            ∃ p, args = [p] ∧ isWild p = true ∧ 0 < payload.arguments.length) := by
  obtain ⟨typed, plain⟩ := fits
  obtain ⟨owner', td, targs', owned, declared', -, exposed', typed⟩ := typed
  cases exposed'.unique exposed
  cases declared'.symm.trans declared
  rw [lookup_variant declared mem] at typed
  simp only [Plain, plainAll_iff, argCount, owned, declared, bind_some, lookup_variant declared mem] at plain
  refine ⟨plain.2, ?_⟩
  cases payload with
  | none => exact typed
  | some payload => exact ⟨typed, plain.1⟩

theorem refines_variant (mem : (name, some payload) ∈ variants) :
    c.Refines (specializeCtor · name true) t [payload.instantiate targs] := by
  intro p sub fits found
  rcases constructor_of_wellTyped exposed fits.1 with wild | ⟨other, args, rfl⟩
  · simp only [specializeCtor, wild, if_true, some.injEq] at found
    subst found
    exact .cons (fits_wild _) .nil
  · simp only [specializeCtor, isWild, false_eq_true, if_false, ite_none_right_eq_some,
      some.injEq] at found
    obtain ⟨rfl, rfl⟩ := found
    obtain ⟨plain, typed, count⟩ := fits_constructor exposed declared mem fits
    refine .cons ?_ .nil
    rcases args with _ | ⟨p, _ | ⟨q, rest⟩⟩
    · exact fits_wild _
    · exact ⟨by simpa [WellTypedFirst, Ty.boundTo, ctorPayloadPattern] using typed, plain p (by simp)⟩
    · rcases arguments_cases payload with one | ⟨items, rfl, many, eq⟩
      · rw [one] at count
        simp at count
      · rw [eq] at count
        have same : (p :: q :: rest).length = items.length := by simpa using count
        have bound : (Ty.tuple items).boundTo (p :: q :: rest).length = items := by simp [Ty.boundTo]
        rw [bound, wellTypedFirst_iff (by simpa using same)] at typed
        refine ⟨?_, by simpa [ctorPayloadPattern, Plain, plainAll_iff] using plain⟩
        rw [instantiate_tuple]
        refine ⟨_, exposes_tuple _, by simpa using same, (wellTypedFirst_iff (by simpa using same)).mpr ?_⟩
        rw [forall₂_map_right_iff]
        exact typed.imp fun _ _ => wellTyped_resolve.mpr

include arity

theorem opens_constant (mem : (name, none) ∈ variants) :
    c.Opens (specializeCtor · name false) t [] (.variant name []) [] := by
  refine ⟨typed_variant exposed declared arity mem .nil, .nil, fun p fits => ?_⟩
  rcases constructor_of_wellTyped exposed fits.1 with wild | ⟨other, args, rfl⟩
  · exact iff_of_true (accepts_of_isWild wild _) ⟨[], by simp [specializeCtor, wild], rfl⟩
  · by_cases eq : other = name
    · subst eq
      obtain ⟨-, rfl⟩ := fits_constructor exposed declared mem fits
      simp [accepts, specializeCtor]
    · simp [accepts, specializeCtor, isWild, eq, Ne.symm eq]

theorem opens_variant (mem : (name, some payload) ∈ variants) (packs : Packs payload vs x)
    (parts : Forall₂ c.Typed vs (payload.arguments.map (Ty.instantiate targs)))
    (typed : c.Typed x (payload.instantiate targs)) :
    c.Opens (specializeCtor · name true) t [payload.instantiate targs] (.variant name vs) [x] := by
  refine ⟨typed_variant exposed declared arity mem parts, .cons typed .nil, fun p fits => ?_⟩
  rcases constructor_of_wellTyped exposed fits.1 with wild | ⟨other, args, rfl⟩
  · exact iff_of_true (accepts_of_isWild wild _) ⟨[.pWild], by simp [specializeCtor, wild], by simp⟩
  · by_cases eq : other = name
    · subst eq
      obtain ⟨-, -, count⟩ := fits_constructor exposed declared mem fits
      have same := acceptsAll_payload packs (by simpa using parts.length_eq) count
      simp [accepts, specializeCtor, isWild, same]
    · simp [accepts, specializeCtor, isWild, eq, Ne.symm eq]

end Union

end Constructors

end Checker

end LexLang.Types
