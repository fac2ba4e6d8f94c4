/-
# LexLang.Ast.Equality — canonical trees compared part by part

The derived `PartialEq` of patterns, types and expressions (`lex-ast/src/canonical.rs`): a float is
its text, so two trees are equal when they are the same tree (`CExpr.beq_iff`).
-/
import LexLang.Ast.Canonical

namespace LexLang.Ast

/-! ## Patterns -/

namespace Pattern

mutual

def beq : Pattern → Pattern → Bool
  | .pLiteral v, .pLiteral v' => v == v'
  | .pVar name, .pVar name' => name == name'
  | .pWild, .pWild => true
  | .pConstructor name args, .pConstructor name' args' => name == name' && beqAll args args'
  | .pRecord fields, .pRecord fields' => beqFields fields fields'
  | .pTuple items, .pTuple items' => beqAll items items'
  | _, _ => false

def beqAll : List Pattern → List Pattern → Bool
  | [], [] => true
  | p :: ps, q :: qs => beq p q && beqAll ps qs
  | _, _ => false

def beqFields : List (String × Pattern) → List (String × Pattern) → Bool
  | [], [] => true
  | (name, p) :: ps, (name', q) :: qs => name == name' && beq p q && beqFields ps qs
  | _, _ => false

end

mutual

theorem beq_iff : ∀ p q : Pattern, p.beq q = true ↔ p = q
  | .pLiteral _, q | .pVar _, q | .pWild, q => by cases q <;> simp [beq]
  | .pConstructor _ args, q => by cases q <;> simp [beq, beqAll_iff args]
  | .pRecord fields, q => by cases q <;> simp [beq, beqFields_iff fields]
  | .pTuple items, q => by cases q <;> simp [beq, beqAll_iff items]

theorem beqAll_iff : ∀ ps qs : List Pattern, beqAll ps qs = true ↔ ps = qs
  | [], qs => by cases qs <;> simp [beqAll]
  | p :: ps, qs => by cases qs <;> simp [beqAll, beq_iff p, beqAll_iff ps]

theorem beqFields_iff : ∀ ps qs : List (String × Pattern), beqFields ps qs = true ↔ ps = qs
  | [], qs => by cases qs <;> simp [beqFields]
  | (name, p) :: ps, [] => by simp [beqFields]
  | (name, p) :: ps, (name', q) :: qs => by
    simp [beqFields, beq_iff p, beqFields_iff ps, and_assoc]

end

instance : DecidableEq Pattern := fun p q => decidable_of_iff (p.beq q = true) (beq_iff p q)

end Pattern

/-! ## Types and expressions -/

mutual

def TypeExpr.beq : TypeExpr → TypeExpr → Bool
  | .named name args, .named name' args' => name == name' && TypeExpr.beqAll args args'
  | .record fields, .record fields' => TypeExpr.beqFields fields fields'
  | .tuple items, .tuple items' => TypeExpr.beqAll items items'
  | .function params effects var ret, .function params' effects' var' ret' =>
    TypeExpr.beqAll params params' && effects == effects' && var == var' && ret.beq ret'
  | .union variants, .union variants' => TypeExpr.beqVariants variants variants'
  | .recordWithSpreads spreads fields, .recordWithSpreads spreads' fields' =>
    spreads == spreads' && TypeExpr.beqFields fields fields'
  | .refined base binding predicate, .refined base' binding' predicate' =>
    base.beq base' && binding == binding' && predicate.beq predicate'
  | _, _ => false
termination_by structural x => x

def TypeExpr.beqAll : List TypeExpr → List TypeExpr → Bool
  | [], [] => true
  | t :: ts, u :: us => t.beq u && TypeExpr.beqAll ts us
  | _, _ => false
termination_by structural x => x

def TypeExpr.beqFields : List (String × TypeExpr) → List (String × TypeExpr) → Bool
  | [], [] => true
  | (name, t) :: ts, (name', u) :: us => name == name' && t.beq u && TypeExpr.beqFields ts us
  | _, _ => false
termination_by structural x => x

def TypeExpr.beqOption : Option TypeExpr → Option TypeExpr → Bool
  | none, none => true
  | some t, some u => t.beq u
  | _, _ => false
termination_by structural x => x

def TypeExpr.beqVariants : List (String × Option TypeExpr) → List (String × Option TypeExpr) → Bool
  | [], [] => true
  | (name, t) :: ts, (name', u) :: us =>
    name == name' && TypeExpr.beqOption t u && TypeExpr.beqVariants ts us
  | _, _ => false
termination_by structural x => x

def CExpr.beq : CExpr → CExpr → Bool
  | .literal v, .literal v' => v == v'
  | .var name, .var name' => name == name'
  | .call callee args, .call callee' args' => callee.beq callee' && CExpr.beqAll args args'
  | .letE name ty value body, .letE name' ty' value' body' =>
    name == name' && TypeExpr.beqOption ty ty' && value.beq value' && body.beq body'
  | .matchE scrutinee arms, .matchE scrutinee' arms' =>
    scrutinee.beq scrutinee' && CExpr.beqArms arms arms'
  | .block statements result, .block statements' result' =>
    CExpr.beqAll statements statements' && result.beq result'
  | .constructor name args, .constructor name' args' => name == name' && CExpr.beqAll args args'
  | .recordLit fields, .recordLit fields' => CExpr.beqFields fields fields'
  | .tupleLit items, .tupleLit items' => CExpr.beqAll items items'
  | .listLit items, .listLit items' => CExpr.beqAll items items'
  | .fieldAccess value field, .fieldAccess value' field' => value.beq value' && field == field'
  | .lambda params ret effects var body, .lambda params' ret' effects' var' body' =>
    TypeExpr.beqFields params params' && ret.beq ret' && effects == effects' && var == var' &&
      body.beq body'
  | .binOp op lhs rhs, .binOp op' lhs' rhs' => op == op' && lhs.beq lhs' && rhs.beq rhs'
  | .unaryOp op expr, .unaryOp op' expr' => op == op' && expr.beq expr'
  | .returnE value, .returnE value' => value.beq value'
  | _, _ => false
termination_by structural x => x

def CExpr.beqAll : List CExpr → List CExpr → Bool
  | [], [] => true
  | e :: es, e' :: es' => e.beq e' && CExpr.beqAll es es'
  | _, _ => false
termination_by structural x => x

def CExpr.beqFields : List (String × CExpr) → List (String × CExpr) → Bool
  | [], [] => true
  | (name, e) :: es, (name', e') :: es' => name == name' && e.beq e' && CExpr.beqFields es es'
  | _, _ => false
termination_by structural x => x

def CExpr.beqArms : List (Pattern × CExpr) → List (Pattern × CExpr) → Bool
  | [], [] => true
  | (p, e) :: es, (p', e') :: es' => p == p' && e.beq e' && CExpr.beqArms es es'
  | _, _ => false
termination_by structural x => x

end

mutual

theorem TypeExpr.beq_iff : ∀ t u : TypeExpr, t.beq u = true ↔ t = u
  | .named _ args, u => by cases u <;> simp [TypeExpr.beq, TypeExpr.beqAll_iff args]
  | .record fields, u => by cases u <;> simp [TypeExpr.beq, TypeExpr.beqFields_iff fields]
  | .tuple items, u => by cases u <;> simp [TypeExpr.beq, TypeExpr.beqAll_iff items]
  | .function params _ _ ret, u => by
    cases u <;> simp [TypeExpr.beq, TypeExpr.beqAll_iff params, TypeExpr.beq_iff ret, and_assoc]
  | .union variants, u => by cases u <;> simp [TypeExpr.beq, TypeExpr.beqVariants_iff variants]
  | .recordWithSpreads _ fields, u => by
    cases u <;> simp [TypeExpr.beq, TypeExpr.beqFields_iff fields]
  | .refined base _ predicate, u => by
    cases u <;> simp [TypeExpr.beq, TypeExpr.beq_iff base, CExpr.beq_iff predicate, and_assoc]
termination_by structural x => x

theorem TypeExpr.beqAll_iff : ∀ ts us : List TypeExpr, TypeExpr.beqAll ts us = true ↔ ts = us
  | [], us => by cases us <;> simp [TypeExpr.beqAll]
  | t :: ts, us => by cases us <;> simp [TypeExpr.beqAll, TypeExpr.beq_iff t, TypeExpr.beqAll_iff ts]
termination_by structural x => x

theorem TypeExpr.beqFields_iff : ∀ ts us : List (String × TypeExpr),
    TypeExpr.beqFields ts us = true ↔ ts = us
  | [], us => by cases us <;> simp [TypeExpr.beqFields]
  | (_, _) :: _, [] => by simp [TypeExpr.beqFields]
  | (_, t) :: ts, (_, u) :: us => by
    simp [TypeExpr.beqFields, TypeExpr.beq_iff t, TypeExpr.beqFields_iff ts, and_assoc]
termination_by structural x => x

theorem TypeExpr.beqOption_iff : ∀ t u : Option TypeExpr, TypeExpr.beqOption t u = true ↔ t = u
  | none, u => by cases u <;> simp [TypeExpr.beqOption]
  | some t, u => by cases u <;> simp [TypeExpr.beqOption, TypeExpr.beq_iff t]
termination_by structural x => x

theorem TypeExpr.beqVariants_iff : ∀ ts us : List (String × Option TypeExpr),
    TypeExpr.beqVariants ts us = true ↔ ts = us
  | [], us => by cases us <;> simp [TypeExpr.beqVariants]
  | (_, _) :: _, [] => by simp [TypeExpr.beqVariants]
  | (_, t) :: ts, (_, u) :: us => by
    simp [TypeExpr.beqVariants, TypeExpr.beqOption_iff t, TypeExpr.beqVariants_iff ts, and_assoc]
termination_by structural x => x

theorem CExpr.beq_iff : ∀ e e' : CExpr, e.beq e' = true ↔ e = e'
  | .literal _, e' | .var _, e' => by cases e' <;> simp [CExpr.beq]
  | .call callee args, e' => by
    cases e' <;> simp [CExpr.beq, CExpr.beq_iff callee, CExpr.beqAll_iff args]
  | .letE _ ty value body, e' => by
    cases e' <;> simp [CExpr.beq, TypeExpr.beqOption_iff ty, CExpr.beq_iff value, CExpr.beq_iff body, and_assoc]
  | .matchE scrutinee arms, e' => by
    cases e' <;> simp [CExpr.beq, CExpr.beq_iff scrutinee, CExpr.beqArms_iff arms]
  | .block statements result, e' => by
    cases e' <;> simp [CExpr.beq, CExpr.beqAll_iff statements, CExpr.beq_iff result]
  | .constructor _ args, e' => by cases e' <;> simp [CExpr.beq, CExpr.beqAll_iff args]
  | .recordLit fields, e' => by cases e' <;> simp [CExpr.beq, CExpr.beqFields_iff fields]
  | .tupleLit items, e' | .listLit items, e' => by
    cases e' <;> simp [CExpr.beq, CExpr.beqAll_iff items]
  | .fieldAccess value _, e' => by cases e' <;> simp [CExpr.beq, CExpr.beq_iff value]
  | .lambda params ret _ _ body, e' => by
    cases e' <;> simp [CExpr.beq, TypeExpr.beqFields_iff params, TypeExpr.beq_iff ret, CExpr.beq_iff body, and_assoc]
  | .binOp _ lhs rhs, e' => by
    cases e' <;> simp [CExpr.beq, CExpr.beq_iff lhs, CExpr.beq_iff rhs, and_assoc]
  | .unaryOp _ expr, e' => by cases e' <;> simp [CExpr.beq, CExpr.beq_iff expr]
  | .returnE value, e' => by cases e' <;> simp [CExpr.beq, CExpr.beq_iff value]
termination_by structural x => x

theorem CExpr.beqAll_iff : ∀ es es' : List CExpr, CExpr.beqAll es es' = true ↔ es = es'
  | [], es' => by cases es' <;> simp [CExpr.beqAll]
  | e :: es, es' => by cases es' <;> simp [CExpr.beqAll, CExpr.beq_iff e, CExpr.beqAll_iff es]
termination_by structural x => x

theorem CExpr.beqFields_iff : ∀ es es' : List (String × CExpr),
    CExpr.beqFields es es' = true ↔ es = es'
  | [], es' => by cases es' <;> simp [CExpr.beqFields]
  | (_, _) :: _, [] => by simp [CExpr.beqFields]
  | (_, e) :: es, (_, e') :: es' => by
    simp [CExpr.beqFields, CExpr.beq_iff e, CExpr.beqFields_iff es, and_assoc]
termination_by structural x => x

theorem CExpr.beqArms_iff : ∀ es es' : List (Pattern × CExpr),
    CExpr.beqArms es es' = true ↔ es = es'
  | [], es' => by cases es' <;> simp [CExpr.beqArms]
  | (_, _) :: _, [] => by simp [CExpr.beqArms]
  | (_, e) :: es, (_, e') :: es' => by
    simp [CExpr.beqArms, CExpr.beq_iff e, CExpr.beqArms_iff es, and_assoc]
termination_by structural x => x

end

instance : DecidableEq TypeExpr := fun t u =>
  decidable_of_iff (t.beq u = true) (TypeExpr.beq_iff t u)

instance : DecidableEq CExpr := fun e e' => decidable_of_iff (e.beq e' = true) (CExpr.beq_iff e e')

end LexLang.Ast
