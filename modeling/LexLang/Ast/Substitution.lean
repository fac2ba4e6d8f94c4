/-
# LexLang.Ast.Substitution — expressions with another in the place of a variable

The free variables of an expression, and the two rewritings of `lex-ast/src/transforms.rs` that go
down to them: one puts an expression in the place of a variable, the other a new name. Both leave
alone what is bound again on the way. Neither looks whether a binder on the way takes a name of what
it puts.
-/
import LexLang.Ast.Induction
import LexLang.Ast.Meaning
import LexLang.Compiler.Emit
import Mathlib.Data.List.Forall2

namespace LexLang.Ast

open List

/-! ## Binders and free variables -/

/-- `pattern_bindings`, which is `pattern_binders` of the compiler. -/
abbrev patternBindings (p : Pattern) : List String := Compiler.patternBinders p

theorem sizeOf_snd_lt_of_mem {α β : Type} [SizeOf α] [SizeOf β] {xs : List (α × β)} {x : α × β} (h : x ∈ xs) :
    sizeOf x.2 < sizeOf xs := by
  have hlt := sizeOf_lt_of_mem h
  have hspec : sizeOf x = 1 + sizeOf x.1 + sizeOf x.2 := rfl
  omega

/-- **The free variables** of an expression. -/
def freeVars : CExpr → List String
  | .var name => [name]
  | .literal _ => []
  | .call callee args => freeVars callee ++ args.flatMap freeVars
  | .letE name _ value body => freeVars value ++ (freeVars body).filter (· ∉ [name])
  | .matchE scrutinee arms =>
    freeVars scrutinee ++ arms.flatMap fun arm => (freeVars arm.2).filter (· ∉ patternBindings arm.1)
  | .block statements result => statements.flatMap freeVars ++ freeVars result
  | .constructor _ args => args.flatMap freeVars
  | .recordLit fields => fields.flatMap fun f => freeVars f.2
  | .tupleLit items | .listLit items => items.flatMap freeVars
  | .fieldAccess value _ => freeVars value
  | .lambda params _ _ _ body => (freeVars body).filter (· ∉ params.map Prod.fst)
  | .binOp _ lhs rhs => freeVars lhs ++ freeVars rhs
  | .unaryOp _ expr => freeVars expr
  | .returnE value => freeVars value
termination_by e => sizeOf e
decreasing_by
  all_goals simp_wf
  all_goals first
    | omega
    | have := sizeOf_lt_of_mem ‹_ ∈ _›; omega
    | have := sizeOf_snd_lt_of_mem ‹_ ∈ _›; omega

/-- `substitute_in_expr`: an expression in the place of a variable, where it is not bound again. -/
def substituteInExpr (name : String) (replacement : CExpr) : CExpr → CExpr
  | .var n => if n = name then replacement else .var n
  | .literal value => .literal value
  | .call callee args =>
    .call (substituteInExpr name replacement callee) (args.map (substituteInExpr name replacement))
  | .letE binder ty value body =>
    .letE binder ty (substituteInExpr name replacement value)
      (if name ∈ [binder] then body else substituteInExpr name replacement body)
  | .matchE scrutinee arms =>
    .matchE (substituteInExpr name replacement scrutinee) (arms.map fun arm =>
      (arm.1, if name ∈ patternBindings arm.1 then arm.2 else substituteInExpr name replacement arm.2))
  | .block statements result =>
    .block (statements.map (substituteInExpr name replacement)) (substituteInExpr name replacement result)
  | .constructor con args => .constructor con (args.map (substituteInExpr name replacement))
  | .recordLit fields => .recordLit (fields.map fun f => (f.1, substituteInExpr name replacement f.2))
  | .tupleLit items => .tupleLit (items.map (substituteInExpr name replacement))
  | .listLit items => .listLit (items.map (substituteInExpr name replacement))
  | .fieldAccess value field => .fieldAccess (substituteInExpr name replacement value) field
  | .lambda params returnType effects effectRowVar body =>
    .lambda params returnType effects effectRowVar
      (if name ∈ params.map Prod.fst then body else substituteInExpr name replacement body)
  | .binOp op lhs rhs =>
    .binOp op (substituteInExpr name replacement lhs) (substituteInExpr name replacement rhs)
  | .unaryOp op expr => .unaryOp op (substituteInExpr name replacement expr)
  | .returnE value => .returnE (substituteInExpr name replacement value)
termination_by e => sizeOf e
decreasing_by
  all_goals simp_wf
  all_goals first
    | omega
    | have := sizeOf_lt_of_mem ‹_ ∈ _›; omega
    | have := sizeOf_snd_lt_of_mem ‹_ ∈ _›; omega

/-- `rewrite_var_in_expr`: the same with a name. -/
def rewriteVarInExpr (old new : String) : CExpr → CExpr := substituteInExpr old (.var new)

/-! ## Scopes -/

/-- **The expressions right below one**, each with what is bound in it. -/
def scopes : CExpr → List (List String × CExpr)
  | .literal _ | .var _ => []
  | .call callee args => ([], callee) :: args.map fun e => ([], e)
  | .letE name _ value body => [([], value), ([name], body)]
  | .matchE scrutinee arms => ([], scrutinee) :: arms.map fun arm => (patternBindings arm.1, arm.2)
  | .block statements result => (statements.map fun e => ([], e)) ++ [([], result)]
  | .constructor _ args => args.map fun e => ([], e)
  | .recordLit fields => fields.map fun f => ([], f.2)
  | .tupleLit items | .listLit items => items.map fun e => ([], e)
  | .fieldAccess value _ => [([], value)]
  | .lambda params _ _ _ body => [(params.map Prod.fst, body)]
  | .binOp _ lhs rhs => [([], lhs), ([], rhs)]
  | .unaryOp _ expr => [([], expr)]
  | .returnE value => [([], value)]

theorem scopes_induction {P : CExpr → Prop} (step : ∀ e, (∀ c ∈ scopes e, P c.2) → P e) : ∀ e, P e := by
  refine ExprSteps.onExpr ?_
  constructor <;> intros <;> apply step <;> clear step <;> simp_all only [scopes, forall_mem_cons, forall_mem_append,
    forall_mem_map, not_mem_nil, false_implies, implies_true, and_self, mem_singleton]

variable {e : CExpr}

theorem mem_freeVars_iff {n : String} : n ∈ freeVars e ↔ e = .var n ∨ ∃ c ∈ scopes e, n ∈ freeVars c.2 ∧ n ∉ c.1 := by
  cases e <;> simp [freeVars, scopes]
  case var => exact eq_comm
  case recordLit => exact exists_comm.trans (exists_congr fun _ => exists_and_right)

variable {name : String} {replacement : CExpr}

/-- Below a node that is no variable, substitution goes into what does not bind the name. -/
theorem scopes_substituteInExpr (hvar : ∀ n, e ≠ .var n) :
    scopes (substituteInExpr name replacement e) = (scopes e).map fun c =>
      (c.1, if name ∈ c.1 then c.2 else substituteInExpr name replacement c.2) := by
  cases e <;> simp_all [scopes, substituteInExpr]

/-- **A relation on what is right below two nodes of one kind**, which is told what is bound there. -/
inductive Lifts (R : List String → CExpr → CExpr → Prop) : CExpr → CExpr → Prop
  | literal (value) : Lifts R (.literal value) (.literal value)
  | call {callee callee' args args'} : R [] callee callee' → Forall₂ (R []) args args' →
      Lifts R (.call callee args) (.call callee' args')
  | letE {name ty value value' body body'} : R [] value value' → R [name] body body' →
      Lifts R (.letE name ty value body) (.letE name ty value' body')
  | matchE {scrutinee scrutinee' arms arms'} : R [] scrutinee scrutinee' →
      Forall₂ (fun arm arm' => arm.1 = arm'.1 ∧ R (patternBindings arm'.1) arm.2 arm'.2) arms arms' →
      Lifts R (.matchE scrutinee arms) (.matchE scrutinee' arms')
  | block {statements statements' result result'} : Forall₂ (R []) statements statements' →
      R [] result result' → Lifts R (.block statements result) (.block statements' result')
  | constructor {name args args'} : Forall₂ (R []) args args' →
      Lifts R (.constructor name args) (.constructor name args')
  | recordLit {fields fields'} : Forall₂ (fun f f' => f.1 = f'.1 ∧ R [] f.2 f'.2) fields fields' →
      Lifts R (.recordLit fields) (.recordLit fields')
  | tupleLit {items items'} : Forall₂ (R []) items items' → Lifts R (.tupleLit items) (.tupleLit items')
  | listLit {items items'} : Forall₂ (R []) items items' → Lifts R (.listLit items) (.listLit items')
  | fieldAccess {value value' field} : R [] value value' →
      Lifts R (.fieldAccess value field) (.fieldAccess value' field)
  | lambda {params returnType effects effectRowVar body body'} : R (params.map Prod.fst) body body' →
      Lifts R (.lambda params returnType effects effectRowVar body)
        (.lambda params returnType effects effectRowVar body')
  | binOp {op lhs lhs' rhs rhs'} : R [] lhs lhs' → R [] rhs rhs' → Lifts R (.binOp op lhs rhs) (.binOp op lhs' rhs')
  | unaryOp {op expr expr'} : R [] expr expr' → Lifts R (.unaryOp op expr) (.unaryOp op expr')
  | returnE {value value'} : R [] value value' → Lifts R (.returnE value) (.returnE value')

variable {R : List String → CExpr → CExpr → Prop}

theorem lifts_refl (hvar : ∀ n, e ≠ .var n) (h : ∀ c ∈ scopes e, R c.1 c.2 c.2) : Lifts R e e := by
  cases e <;> simp only [scopes, forall_mem_cons, forall_mem_append, forall_mem_map] at h
  case var n => exact absurd rfl (hvar n)
  case recordLit fields => exact .recordLit (forall₂_same.mpr fun f hf => ⟨rfl, h f hf⟩)
  all_goals constructor <;> simp_all [forall₂_same]

theorem lifts_substituteInExpr
    (hvar : ∀ n, e ≠ .var n)
    (h : ∀ c ∈ scopes e, R c.1 (if name ∈ c.1 then c.2 else substituteInExpr name replacement c.2) c.2) :
    Lifts R (substituteInExpr name replacement e) e := by
  cases e <;> simp only [scopes, forall_mem_cons, forall_mem_append, forall_mem_map,
    not_mem_nil, if_false] at h <;> rw [substituteInExpr]
  case var n => exact absurd rfl (hvar n)
  case recordLit fields =>
    exact .recordLit (forall₂_map_left_iff.mpr (forall₂_same.mpr fun f hf => ⟨rfl, h f hf⟩))
  all_goals constructor <;> simp_all [forall₂_same, forall₂_map_left_iff]

/-- **A free occurrence of a variable**: the way to it, and what is bound on that way. -/
inductive Occurs (name : String) : CExpr → List Nat → List String → Prop
  | here : Occurs name (.var name) [] []
  | under {e : CExpr} {i : Nat} {c : List String × CExpr} {path : List Nat} {binders : List String}
      (hc : (scopes e)[i]? = some c) (hname : name ∉ c.1) (hoccurs : Occurs name c.2 path binders) :
      Occurs name e (i :: path) (c.1 ++ binders)

theorem mem_freeVars_iff_occurs {n : String} : ∀ e, n ∈ freeVars e ↔ ∃ path binders, Occurs n e path binders := by
  refine scopes_induction fun e ih => ?_
  rw [mem_freeVars_iff]
  constructor
  · rintro (rfl | ⟨c, hc, hfree, hn⟩)
    · exact ⟨[], [], .here⟩
    · obtain ⟨path, binders, hoccurs⟩ := (ih c hc).mp hfree
      obtain ⟨i, hi⟩ := mem_iff_getElem?.mp hc
      exact ⟨_, _, .under hi hn hoccurs⟩
  · rintro ⟨_, _, _ | ⟨hc, hn, hoccurs⟩⟩
    · exact .inl rfl
    · have hmem := mem_of_getElem? hc
      exact .inr ⟨_, hmem, (ih _ hmem).mpr ⟨_, _, hoccurs⟩, hn⟩

/-! ## Meaning -/

namespace Env

variable {V : Type} {binds : List (String × V)} {n : String}

theorem bindAll_of_notMem (env : Env V) (h : n ∉ binds.map Prod.fst) : env.bindAll binds n = env n := by
  induction binds generalizing env with
  | nil => rfl
  | cons entry binds ih =>
    rw [map_cons, mem_cons, not_or] at h
    show (env.bind entry.1 entry.2).bindAll binds n = env n
    rw [ih _ h.2]
    exact if_neg h.1

theorem bindAll_of_mem (env env' : Env V) (h : n ∈ binds.map Prod.fst) :
    env.bindAll binds n = env'.bindAll binds n := by
  induction binds generalizing env env' with
  | nil => cases h
  | cons entry binds ih =>
    show (env.bind entry.1 entry.2).bindAll binds n = (env'.bind entry.1 entry.2).bindAll binds n
    by_cases hin : n ∈ binds.map Prod.fst
    · exact ih _ _ hin
    · rw [bindAll_of_notMem _ hin, bindAll_of_notMem _ hin]
      rw [map_cons, mem_cons, or_iff_left hin] at h
      simp [bind, h]

end Env

namespace Language

variable {M : Type → Type} {V : Type} (language : Language M V)

mutual

/-- What a match binds are the variables of the pattern. -/
theorem matchPattern_binds : ∀ (p : Pattern) (v : V) (binds : List (String × V)),
    language.matchPattern p v = some binds → binds.map Prod.fst = patternBindings p
  | .pLiteral value, v, binds, h => by
    unfold matchPattern at h
    split at h
    · split_ifs at h
      cases h
      rfl
    · cases h
  | .pVar name, v, binds, h => by
    cases h
    rfl
  | .pWild, v, binds, h => by
    cases h
    rfl
  | .pConstructor name args, v, binds, h => by
    unfold matchPattern at h
    split at h
    · split_ifs at h
      exact matchAll_binds args _ binds h
    · cases h
  | .pRecord fields, v, binds, h => by
    unfold matchPattern at h
    split at h
    · exact matchFields_binds fields _ binds h
    · cases h
  | .pTuple items, v, binds, h => by
    unfold matchPattern at h
    split at h
    · exact matchAll_binds items _ binds h
    · split_ifs at h with hempty
      cases h
      rw [List.isEmpty_iff.mp hempty]
      rfl
    · cases h

theorem matchAll_binds : ∀ (ps : List Pattern) (vs : List V) (binds : List (String × V)),
    language.matchAll ps vs = some binds → binds.map Prod.fst = Compiler.patternsBinders ps
  | [], _, _, h => by
    cases h
    rfl
  | _ :: _, [], _, h => by cases h
  | p :: ps, v :: vs, binds, h => by
    unfold matchAll at h
    split at h
    · rename_i first rest hfirst hrest
      cases h
      rw [map_append, matchPattern_binds p v first hfirst, matchAll_binds ps vs rest hrest]
      rfl
    · cases h

theorem matchFields_binds : ∀ (fields : List (String × Pattern)) (values : List (String × V))
    (binds : List (String × V)), language.matchFields fields values = some binds →
      binds.map Prod.fst = Compiler.patternFieldsBinders fields
  | [], _, _, h => by
    cases h
    rfl
  | (name, p) :: fields, values, binds, h => by
    unfold matchFields at h
    split at h
    · cases h
    · split at h
      · rename_i v _ _ _ first rest hfirst hrest
        cases h
        rw [map_append, matchPattern_binds p _ first hfirst, matchFields_binds fields values rest hrest]
        rfl
      · cases h

end

/-- **A closure checks its arity**: it is known by what it does with as many values as it has parameters. -/
def ChecksArity : Prop := ∀ (names : List String) (f g : List V → M V),
  (∀ vs, vs.length = names.length → f vs = g vs) → language.closure names f = language.closure names g

variable [Monad M]

/-- One expression in an environment comes to what another does in another, whatever is bound in both. -/
def Alike (env env' : Env V) (binders : List String) (c c' : CExpr) : Prop :=
  ∀ binds : List (String × V), binds.map Prod.fst = binders →
    language.eval (env.bindAll binds) c = language.eval (env'.bindAll binds) c'

variable {language} {env env' : Env V}

theorem Alike.here {c c' : CExpr} (h : language.Alike env env' [] c c') :
    language.eval env c = language.eval env' c' := h [] rfl

theorem evalAll_congr {es es' : List CExpr} (h : Forall₂ (language.Alike env env' []) es es') :
    language.evalAll env es = language.evalAll env' es' := by
  induction h with
  | nil => rfl
  | cons he _ ih => rw [evalAll, evalAll, he.here, ih]

theorem evalFields_congr {fields fields' : List (String × CExpr)}
    (h : Forall₂ (fun f f' => f.1 = f'.1 ∧ language.Alike env env' [] f.2 f'.2) fields fields') :
    language.evalFields env fields = language.evalFields env' fields' := by
  induction h with
  | nil => rfl
  | @cons f f' _ _ hf _ ih =>
    obtain ⟨name, e⟩ := f
    obtain ⟨rfl, he⟩ := hf
    rw [evalFields, evalFields, ih, he.here]

theorem evalArms_congr {v : V} {arms arms' : List (Pattern × CExpr)}
    (h : Forall₂ (fun arm arm' => arm.1 = arm'.1 ∧
      language.Alike env env' (patternBindings arm'.1) arm.2 arm'.2) arms arms') :
    language.evalArms env v arms = language.evalArms env' v arms' := by
  induction h with
  | nil => rfl
  | @cons arm arm' _ _ harm _ ih =>
    obtain ⟨p, body⟩ := arm
    obtain ⟨rfl, hbody⟩ := harm
    rw [evalArms, evalArms, ih]
    cases hbinds : language.matchPattern arm'.1 v with
    | none => rfl
    | some binds => exact hbody binds (language.matchPattern_binds arm'.1 v binds hbinds)

/-- **What an expression comes to depends on what is right below it.** -/
theorem eval_of_lifts (harity : language.ChecksArity) {e' : CExpr} (h : Lifts (language.Alike env env') e e') :
    language.eval env e = language.eval env' e' := by
  cases h with
  | literal value => rfl
  | call hcallee hargs => rw [eval, eval, hcallee.here, evalAll_congr hargs]
  | letE hvalue hbody =>
    rw [eval, eval, hvalue.here]
    exact congrArg _ (funext fun v => hbody [(_, v)] rfl)
  | matchE hscrutinee harms =>
    rw [eval, eval, hscrutinee.here]
    exact congrArg _ (funext fun v => evalArms_congr harms)
  | block hstatements hresult => rw [eval, eval, evalAll_congr hstatements, hresult.here]
  | constructor hargs => rw [eval, eval, evalAll_congr hargs]
  | recordLit hfields => rw [eval, eval, evalFields_congr hfields]
  | tupleLit hitems | listLit hitems => rw [eval, eval, evalAll_congr hitems]
  | fieldAccess hvalue | unaryOp hvalue | returnE hvalue => rw [eval, eval, hvalue.here]
  | lambda hbody =>
    rw [eval, eval]
    refine congrArg pure (harity _ _ _ fun vs hvs => congrArg language.scope (hbody _ ?_))
    exact map_fst_zip (by omega)
  | binOp hlhs hrhs => rw [eval, eval, hlhs.here, hrhs.here]

/-- Under binders, environments agree on what they bind, and on what they agreed on before. -/
theorem bindAll_congr {binds : List (String × V)} {binders : List String} {n : String}
    (hbinds : binds.map Prod.fst = binders) (hagree : n ∉ binders → env n = env' n) :
    env.bindAll binds n = env'.bindAll binds n := by
  subst hbinds
  by_cases hin : n ∈ binds.map Prod.fst
  · exact Env.bindAll_of_mem env env' hin
  · rw [Env.bindAll_of_notMem env hin, Env.bindAll_of_notMem env' hin]
    exact hagree hin

/-- **Evaluation depends on the free variables only.** -/
theorem eval_congr_env (harity : language.ChecksArity) : ∀ (e : CExpr) (env env' : Env V),
    (∀ n ∈ freeVars e, env n = env' n) → language.eval env e = language.eval env' e := by
  refine scopes_induction fun e ih env env' hagree => ?_
  by_cases hvar : ∃ n, e = .var n
  · obtain ⟨n, rfl⟩ := hvar
    rw [eval, eval, hagree n (mem_freeVars_iff.mpr (.inl rfl))]
  · refine eval_of_lifts harity (lifts_refl (not_exists.mp hvar) fun c hc binds hbinds => ?_)
    exact ih c hc _ _ fun n hn => bindAll_congr hbinds fun hin =>
      hagree n (mem_freeVars_iff.mpr (.inr ⟨c, hc, hn, hin⟩))

/-- **Substitution is faithful where the expression stands for the variable**: one environment is that of the
rewritten expression, and gives its other free variables what the other does; wherever the variable
occurs, whatever is bound there, the replacement comes to what the variable is. -/
theorem eval_substituteInExpr (harity : language.ChecksArity) :
    ∀ (e : CExpr) (env env' : Env V), (∀ n ∈ freeVars e, n ≠ name → env n = env' n) →
      (∀ path binders, Occurs name e path binders → ∀ env₁ : Env V, (∀ n, n ∉ binders → env₁ n = env n) →
        language.eval env₁ replacement = language.eval env' (.var name)) →
      language.eval env (substituteInExpr name replacement e) = language.eval env' e := by
  refine scopes_induction fun e ih env env' hothers hstands => ?_
  by_cases hvar : ∃ n, e = .var n
  · obtain ⟨n, rfl⟩ := hvar
    rw [substituteInExpr]
    split_ifs with heq
    · subst heq
      exact hstands [] [] .here env fun _ _ => rfl
    · rw [eval, eval, hothers n (mem_freeVars_iff.mpr (.inl rfl)) heq]
  · refine eval_of_lifts harity (lifts_substituteInExpr (not_exists.mp hvar) fun c hc binds hbinds => ?_)
    have hothers' : ∀ n ∈ freeVars c.2, n ≠ name → env.bindAll binds n = env'.bindAll binds n :=
      fun n hn hne => bindAll_congr hbinds fun hin =>
        hothers n (mem_freeVars_iff.mpr (.inr ⟨c, hc, hn, hin⟩)) hne
    split_ifs with hin
    · -- bound again: the variable is none of this one's
      refine eval_congr_env harity _ _ _ fun n hn => ?_
      by_cases hne : n = name
      · exact bindAll_congr hbinds fun hnot => absurd hin (hne ▸ hnot)
      · exact hothers' n hn hne
    · refine ih c hc _ _ hothers' fun path binders hoccurs env₁ hagree => ?_
      obtain ⟨i, hi⟩ := mem_iff_getElem?.mp hc
      rw [hstands _ _ (.under hi hin hoccurs) env₁ fun n hn => ?_, eval, eval,
        Env.bindAll_of_notMem env' (hbinds ▸ hin)]
      rw [mem_append, not_or] at hn
      rw [hagree n hn.2, Env.bindAll_of_notMem env (hbinds ▸ hn.1)]

end Language

end LexLang.Ast
