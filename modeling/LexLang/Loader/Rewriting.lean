/-
# LexLang.Loader.Rewriting — what mangling does to one occurrence

A mangled declaration has the occurrences of the declaration, in the same order and under the same
binders, each rewritten by itself (`itemOccurrences_mangle`).
-/
import LexLang.Loader.Mangler
import LexLang.Loader.Occurrences

namespace LexLang.Loader

open LexLang.Syntax
open List

/-! ## Patterns -/

mutual

@[simp] theorem manglePattern_eq : ∀ p : Pattern, manglePattern p = p
  | .constructor name args => by rw [manglePattern, manglePatterns_eq args]
  | .record fields rest => by rw [manglePattern, manglePatternFields_eq fields]
  | .tuple items => by rw [manglePattern, manglePatterns_eq items]
  | .lit _ => rfl
  | .var _ => rfl
  | .wild => rfl

theorem manglePatterns_eq : ∀ ps : List Pattern, manglePatterns ps = ps
  | [] => rfl
  | p :: ps => by rw [manglePatterns, manglePattern_eq p, manglePatterns_eq ps]

theorem manglePatternFields_eq : ∀ fields : List (String × Option Pattern), manglePatternFields fields = fields
  | [] => rfl
  | (name, some p) :: fields => by rw [manglePatternFields, manglePattern_eq p, manglePatternFields_eq fields]
  | (name, none) :: fields => by rw [manglePatternFields, manglePatternFields_eq fields]

end

mutual

/-- The mangler takes every name a pattern writes for a binder. -/
theorem collectPatternBinders_eq : ∀ (p : Pattern) (out : List String),
    collectPatternBinders p out = (patternBindings p).map Binding.name ++ out
  | .var _, _ => rfl
  | .constructor _ args, out => collectPatternsBinders_eq args out
  | .record fields _, out => collectFieldsBinders_eq fields out
  | .tuple items, out => collectPatternsBinders_eq items out
  | .lit _, _ => rfl
  | .wild, _ => rfl

theorem collectPatternsBinders_eq : ∀ (ps : List Pattern) (out : List String),
    collectPatternsBinders ps out = (patternsBindings ps).map Binding.name ++ out
  | [], _ => rfl
  | p :: ps, out => by
    rw [collectPatternsBinders, collectPatternsBinders_eq ps, collectPatternBinders_eq p,
      patternsBindings, map_append, append_assoc]

theorem collectFieldsBinders_eq : ∀ (fields : List (String × Option Pattern)) (out : List String),
    collectFieldsBinders fields out = (patternFieldsBindings fields).map Binding.name ++ out
  | [], _ => rfl
  | (_, some p) :: fields, out => by
    rw [collectFieldsBinders, collectFieldsBinders_eq fields, collectPatternBinders_eq p,
      patternFieldsBindings, map_append, append_assoc]
  | (name, none) :: fields, out => by
    rw [collectFieldsBinders, collectFieldsBinders_eq fields, patternFieldsBindings, map_append,
      append_assoc]
    rfl

end

/-! ## Sites -/

namespace Site

@[simp] theorem names_bind (s : Site) (xs : List String) : (s.bind xs).names = xs.reverse ++ s.names := by
  simp [names, bind, Function.comp_def]

theorem names_underPattern (s : Site) (p : Pattern) :
    (s.underPattern (patternBindings p)).names = collectPatternBinders p s.names := by
  simp [names, underPattern, collectPatternBinders_eq]

theorem names_after (s : Site) (statements : List Statement) :
    (s.after statements).names = shadowAfter s.names statements := by
  induction statements generalizing s with
  | nil => rfl
  | cons stmt statements ih =>
    obtain ⟨name, ty, value⟩ | e := stmt
    · rw [after, ih, names_bind, shadowAfter]
      rfl
    · exact ih s

end Site

/-! ## One occurrence -/

namespace Mangler

variable (m : Mangler)

/-- What a reference becomes. -/
def rewriteReference (s : Site) : Reference → Reference
  | .value name => .value (m.rewriteVar s.names name)
  | .member head field plain =>
    if head ∈ s.names then .member head field plain
    else
      match m.aliasRenames head with
      | some fresh => .headed fresh field
      | none =>
        match m.pathImports head with
        | some child => .value (child ++ "." ++ field)
        | none => .headed (m.rewriteVar s.names head) field
  | .type name => .type (m.rewriteTypeName name)

/-- **What an occurrence becomes**: nothing in a predicate is rewritten. -/
def rewrite (o : Occurrence) : Occurrence :=
  if o.inPredicate then o else { o with reference := m.rewriteReference o.site o.reference }

/-- The tables speak of identifiers: names without a dot. -/
structure Plain : Prop where
  localNames : ∀ name ∈ m.localNames, dotted name = false
  pathImports : ∀ name, dotted name = true → m.pathImports name = none
  aliasRenames : ∀ name, dotted name = true → m.aliasRenames name = none

end Mangler

theorem dotted_append (a b : String) : dotted (a ++ "." ++ b) = true := by
  simp [dotted]

theorem Reference.headed_of_dotted {head field : String} (h : dotted head = true) :
    Reference.headed head field = .value head := by
  simp [Reference.headed, h]

/-! ## Trees -/

namespace Mangler

variable {m : Mangler}

theorem rewrite_under (o : Occurrence) : m.rewrite o.under = o.under := rfl

theorem map_rewrite_under (os : List Occurrence) :
    (os.map Occurrence.under).map m.rewrite = os.map Occurrence.under := by
  rw [map_map]
  exact map_congr_left fun o _ => m.rewrite_under o

theorem mangleExpr_call (shadow : List String) (callee : Expr) (args : List Expr) :
    m.mangleExpr shadow (.call callee args) = .call (m.mangleExpr shadow callee) (m.mangleExprs shadow args) := by
  cases callee with
  | field value field =>
    cases value with
    | var head =>
      simp only [mangleExpr]
      split
      all_goals simp_all
    | _ => rfl
  | _ => rfl

theorem rewriteMember_cases {shadow : List String} {head field : String} {e : Expr}
    (h : m.rewriteMember shadow head field = some e) :
    (∃ fresh, e = .field (.var fresh) field) ∨ ∃ child, e = .var (child ++ "." ++ field) := by
  unfold rewriteMember at h
  split at h
  · simp at h
  · split at h
    · next fresh _ => exact .inl ⟨fresh, (Option.some.inj h).symm⟩
    · obtain ⟨child, _, rfl⟩ := Option.map_eq_some_iff.mp h
      exact .inr ⟨child, rfl⟩

/-- Where `head.field` stands for a declaration, it keeps doing so under another field. -/
theorem fieldOccurrences_mangle (s : Site) (value : Expr) (field : String) (h : ∀ head, value ≠ .var head) :
    exprOccurrences s (.field (m.mangleExpr s.names value) field) =
      exprOccurrences s (m.mangleExpr s.names value) := by
  cases value with
  | var head => exact absurd rfl (h head)
  | field value field =>
    cases value with
    | var head =>
      simp only [mangleExpr]
      cases hmember : m.rewriteMember s.names head field with
      | none => rfl
      | some e =>
        obtain ⟨fresh, rfl⟩ | ⟨child, rfl⟩ := rewriteMember_cases hmember
        · simp only [exprOccurrences]
        · simp only [exprOccurrences, Reference.headed_of_dotted (dotted_append _ _)]
    | _ => simp [mangleExpr, exprOccurrences]
  | _ => simp [mangleExpr, exprOccurrences, mangleExpr_call]

theorem rewriteVar_of_dotted (hm : m.Plain) {shadow : List String} {name : String} (h : dotted name = true) :
    m.rewriteVar shadow name = name := by
  apply if_neg
  rintro ⟨_, hlocal⟩
  simp [hm.localNames name hlocal] at h

/-- **One access**, rewritten. -/
theorem memberOccurrences_mangle (hm : m.Plain) (s : Site) (head field : String) :
    exprOccurrences s (m.mangleExpr s.names (.field (.var head) field)) =
      (exprOccurrences s (.field (.var head) field)).map m.rewrite := by
  simp only [mangleExpr, exprOccurrences, map_cons, map_nil]
  by_cases hdot : dotted head = true
  · have hmember : m.rewriteMember s.names head field = none := by
      simp [rewriteMember, hm.aliasRenames head hdot, hm.pathImports head hdot]
    simp [hmember, Reference.headed, hdot, exprOccurrences, rewriteVar_of_dotted hm hdot, rewrite, rewriteReference]
  · by_cases hbound : head ∈ s.names
    · simp [rewriteMember, hbound, Reference.headed, hdot, exprOccurrences, rewrite, rewriteReference, rewriteVar]
    · cases hrename : m.aliasRenames head with
      | some fresh =>
        simp [rewriteMember, hbound, hrename, Reference.headed, hdot, exprOccurrences, rewrite, rewriteReference]
      | none =>
        cases himport : m.pathImports head with
        | some | none =>
          simp [rewriteMember, hbound, hrename, himport, Reference.headed, hdot, exprOccurrences, rewrite,
            rewriteReference]

/-- The lets of mangled statements are those of the statements. -/
theorem after_mangleStatements (s : Site) (shadow : List String) (statements : List Statement) :
    s.after (m.mangleStatements shadow statements) = s.after statements := by
  induction statements generalizing s shadow with
  | nil => rfl
  | cons stmt statements ih =>
    match stmt with
    | .letS name (some t) value => exact ih (s.bind [name]) (name :: shadow)
    | .letS name none value => exact ih (s.bind [name]) (name :: shadow)
    | .expr e => exact ih s shadow

theorem map_fst_mangleTypeFields (fields : List (String × TypeExpr)) :
    (m.mangleTypeFields fields).map Prod.fst = fields.map Prod.fst := by
  induction fields with
  | nil => rfl
  | cons field fields ih =>
    rw [mangleTypeFields, map_cons, map_cons, ih]

mutual

theorem typeOccurrences_mangle (hm : m.Plain) : ∀ (t : TypeExpr) (s : Site),
    typeOccurrences s (m.mangleTypeExpr t) = (typeOccurrences s t).map m.rewrite
  | .named name args, s => by
    rw [mangleTypeExpr, typeOccurrences, typeOccurrences, typesOccurrences_mangle hm args]
    rfl
  | .record fields, s => typeFieldsOccurrences_mangle hm fields s
  | .tuple items, s => typesOccurrences_mangle hm items s
  | .function params _ _ ret, s => by
    rw [mangleTypeExpr, typeOccurrences, typeOccurrences, typesOccurrences_mangle hm params,
      typeOccurrences_mangle hm ret, map_append]
  | .union variants, s => variantsOccurrences_mangle hm variants s
  | .recordWithSpreads spreads fields, s => by
    rw [mangleTypeExpr, typeOccurrences, typeOccurrences, typeFieldsOccurrences_mangle hm fields,
      map_append, map_map, map_map]
    rfl
  | .refined base binding predicate, s => by
    rw [mangleTypeExpr, typeOccurrences, typeOccurrences, typeOccurrences_mangle hm base, map_append,
      map_rewrite_under]

theorem typesOccurrences_mangle (hm : m.Plain) : ∀ (ts : List TypeExpr) (s : Site),
    typesOccurrences s (m.mangleTypes ts) = (typesOccurrences s ts).map m.rewrite
  | [], _ => rfl
  | t :: ts, s => by
    rw [mangleTypes, typesOccurrences, typesOccurrences, typeOccurrences_mangle hm t,
      typesOccurrences_mangle hm ts, map_append]

theorem typeFieldsOccurrences_mangle (hm : m.Plain) : ∀ (fields : List (String × TypeExpr)) (s : Site),
    typeFieldsOccurrences s (m.mangleTypeFields fields) = (typeFieldsOccurrences s fields).map m.rewrite
  | [], _ => rfl
  | (_, t) :: fields, s => by
    rw [mangleTypeFields, typeFieldsOccurrences, typeFieldsOccurrences, typeOccurrences_mangle hm t,
      typeFieldsOccurrences_mangle hm fields, map_append]

theorem variantsOccurrences_mangle (hm : m.Plain) : ∀ (variants : List (String × Option TypeExpr)) (s : Site),
    variantsOccurrences s (m.mangleVariants variants) = (variantsOccurrences s variants).map m.rewrite
  | [], _ => rfl
  | (_, some t) :: variants, s => by
    rw [mangleVariants, variantsOccurrences, variantsOccurrences, typeOccurrences_mangle hm t,
      variantsOccurrences_mangle hm variants, map_append]
  | (_, none) :: variants, s => variantsOccurrences_mangle hm variants s

theorem blockOccurrences_mangle (hm : m.Plain) : ∀ (b : Block) (s : Site),
    blockOccurrences s (m.mangleBlock s.names b) = (blockOccurrences s b).map m.rewrite
  | .mk statements result, s => by
    -- the lets of the mangled block are those of the block
    have hafter : s.after (m.mangleStatements s.names statements) = s.after statements :=
      after_mangleStatements s s.names statements
    rw [mangleBlock, blockOccurrences, blockOccurrences, hafter, ← Site.names_after,
      statementsOccurrences_mangle hm statements, exprOccurrences_mangle hm result, map_append]

theorem statementsOccurrences_mangle (hm : m.Plain) : ∀ (statements : List Statement) (s : Site),
    statementsOccurrences s (m.mangleStatements s.names statements) =
      (statementsOccurrences s statements).map m.rewrite
  | [], _ => rfl
  | .letS name (some t) value :: statements, s => by
    have ih := statementsOccurrences_mangle hm statements (s.bind [name])
    rw [Site.names_bind, reverse_singleton, singleton_append] at ih
    rw [mangleStatements, statementsOccurrences, statementsOccurrences, exprOccurrences_mangle hm value,
      typeOccurrences_mangle hm t, ih, map_append, map_append]
  | .letS name none value :: statements, s => by
    have ih := statementsOccurrences_mangle hm statements (s.bind [name])
    rw [Site.names_bind, reverse_singleton, singleton_append] at ih
    rw [mangleStatements, statementsOccurrences, statementsOccurrences, exprOccurrences_mangle hm value, ih,
      map_append]
  | .expr e :: statements, s => by
    rw [mangleStatements, statementsOccurrences, statementsOccurrences, exprOccurrences_mangle hm e,
      statementsOccurrences_mangle hm statements, map_append]

theorem exprOccurrences_mangle (hm : m.Plain) : ∀ (e : Expr) (s : Site),
    exprOccurrences s (m.mangleExpr s.names e) = (exprOccurrences s e).map m.rewrite
  | .lit _, _ => rfl
  | .var _, _ => rfl
  | .block b, s => blockOccurrences_mangle hm b s
  | .call callee args, s => by
    rw [mangleExpr_call, exprOccurrences, exprOccurrences, exprsOccurrences_mangle hm args,
      exprOccurrences_mangle hm callee, map_append]
  | .pipe left right, s => by
    rw [mangleExpr, exprOccurrences, exprOccurrences, exprOccurrences_mangle hm left,
      exprOccurrences_mangle hm right, map_append]
  | .tryE inner, s => exprOccurrences_mangle hm inner s
  | .field value field, s => by
    have ih := exprOccurrences_mangle hm value s
    by_cases hvar : ∃ head, value = .var head
    · obtain ⟨head, rfl⟩ := hvar
      exact memberOccurrences_mangle hm s head field
    · have hvalue : ∀ head, value ≠ .var head := fun head h => hvar ⟨head, h⟩
      rw [mangleExpr, fieldOccurrences_mangle s value field hvalue, ih, exprOccurrences]
      all_goals simpa using hvalue
  | .binOp _ lhs rhs, s => by
    rw [mangleExpr, exprOccurrences, exprOccurrences, exprOccurrences_mangle hm lhs,
      exprOccurrences_mangle hm rhs, map_append]
  | .unaryOp _ e, s => exprOccurrences_mangle hm e s
  | .ifE cond thenBlock elseBlock, s => by
    rw [mangleExpr, exprOccurrences, exprOccurrences, exprOccurrences_mangle hm cond,
      blockOccurrences_mangle hm thenBlock, blockOccurrences_mangle hm elseBlock, map_append, map_append]
  | .matchE scrutinee arms, s => by
    rw [mangleExpr, exprOccurrences, exprOccurrences, exprOccurrences_mangle hm scrutinee,
      armsOccurrences_mangle hm arms, map_append]
  | .recordLit fields, s => fieldsOccurrences_mangle hm fields s
  | .tupleLit items, s => exprsOccurrences_mangle hm items s
  | .listLit items, s => exprsOccurrences_mangle hm items s
  | .constructor _ args, s => exprsOccurrences_mangle hm args s
  | .lambda params returnType _ _ body, s => by
    have hbody := blockOccurrences_mangle hm body (s.bind (params.map Prod.fst))
    rw [Site.names_bind] at hbody
    rw [mangleExpr, exprOccurrences, exprOccurrences, map_fst_mangleTypeFields,
      typeFieldsOccurrences_mangle hm params, typeOccurrences_mangle hm returnType, hbody, map_append,
      map_append]
  | .ascription value ty, s => by
    rw [mangleExpr, exprOccurrences, exprOccurrences, exprOccurrences_mangle hm value,
      typeOccurrences_mangle hm ty, map_append]

theorem exprsOccurrences_mangle (hm : m.Plain) : ∀ (es : List Expr) (s : Site),
    exprsOccurrences s (m.mangleExprs s.names es) = (exprsOccurrences s es).map m.rewrite
  | [], _ => rfl
  | e :: es, s => by
    rw [mangleExprs, exprsOccurrences, exprsOccurrences, exprOccurrences_mangle hm e,
      exprsOccurrences_mangle hm es, map_append]

theorem fieldsOccurrences_mangle (hm : m.Plain) : ∀ (fields : List (String × Expr)) (s : Site),
    fieldsOccurrences s (m.mangleFields s.names fields) = (fieldsOccurrences s fields).map m.rewrite
  | [], _ => rfl
  | (_, e) :: fields, s => by
    rw [mangleFields, fieldsOccurrences, fieldsOccurrences, exprOccurrences_mangle hm e,
      fieldsOccurrences_mangle hm fields, map_append]

theorem armsOccurrences_mangle (hm : m.Plain) : ∀ (arms : List (Pattern × Expr)) (s : Site),
    armsOccurrences s (m.mangleArms s.names arms) = (armsOccurrences s arms).map m.rewrite
  | [], _ => rfl
  | (pattern, body) :: arms, s => by
    have hbody := exprOccurrences_mangle hm body (s.underPattern (patternBindings pattern))
    rw [Site.names_underPattern] at hbody
    rw [mangleArms, armsOccurrences, armsOccurrences, manglePattern_eq, hbody,
      armsOccurrences_mangle hm arms, map_append]

end

/-- **A mangled declaration has the same occurrences, each rewritten.** -/
theorem itemOccurrences_mangle (hm : m.Plain) (item : Item) :
    itemOccurrences (m.mangleItem item) = (itemOccurrences item).map m.rewrite := by
  obtain i | td | fd := item
  · rfl
  · exact typeOccurrences_mangle hm td.definition (.top td.params)
  · have hexamples : (fd.examples.map m.mangleExample).flatMap (exampleOccurrences (.top fd.typeParams)) =
        (fd.examples.flatMap (exampleOccurrences (.top fd.typeParams))).map m.rewrite := by
      rw [flatMap_map, map_flatMap]
      apply flatMap_congr
      intro ex _
      have hargs := exprsOccurrences_mangle hm ex.args (.top fd.typeParams)
      have hexpected := exprOccurrences_mangle hm ex.expected (.top fd.typeParams)
      rw [exampleOccurrences, exampleOccurrences, map_append, ← hargs, ← hexpected]
      rfl
    have hbody := blockOccurrences_mangle hm fd.body ((Site.top fd.typeParams).bind (fd.params.map Prod.fst))
    rw [Site.names_bind] at hbody
    simp only [mangleItem, itemOccurrences, mangleFnDecl, map_fst_mangleTypeFields, hexamples,
      typeFieldsOccurrences_mangle hm, typeOccurrences_mangle hm, map_append]
    rw [← hbody]
    simp [Site.names, Site.top]

end Mangler

end LexLang.Loader
