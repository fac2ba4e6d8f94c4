/-
# LexLang.Ast.PartOrder — when the order of entries does not show in a part

A part is invariant if it comes to the same however its entries, and those of its own parts, are
ordered. Here, construct by construct, what that takes: a sorted list of entries needs those of one name
to come to the same, a list left as written all of them, and a match that is folded away its arm only.
-/
import LexLang.Ast.ComesTo
import LexLang.Ast.Permuted

namespace LexLang.Ast

open LexLang.Order
open Option
open List

variable (display : BitVec 64 → String)

/-- Effects of one name have one argument. -/
def OneOfEachName (effects : List Syntax.Effect) : Prop :=
  ∀ effect ∈ effects, ∀ effect' ∈ effects, effect.name = effect'.name → effect = effect'

/-! ## Patterns -/

/-- However the entries of a pattern are ordered, it canonicalizes to the same. -/
def InvariantPattern : Syntax.Pattern → Prop :=
  Invariant Syntax.Pattern.Permuted (canonicalizePattern display)

/-- A field of a record pattern is invariant if its pattern is. -/
theorem invariant_patternField (field : String × Option Syntax.Pattern) :
    Invariant (Named (Option.Rel Syntax.Pattern.Permuted)) (patternField display) field ↔
      ∀ p ∈ field.2, InvariantPattern display p := by
  obtain ⟨name, pattern⟩ := field
  have hnode : Invariant (Named (Option.Rel Syntax.Pattern.Permuted)) (patternField display) (name, pattern) ↔
      Invariant (Option.Rel Syntax.Pattern.Permuted) (Option.map (canonicalizePattern display)) pattern := by
    apply invariant_named
    intro pattern' hpattern
    match pattern, pattern', hpattern with
    | none, none, _ => simp
    | some p, some p', _ => simp [patternField]
  exact hnode.trans invariant_option

theorem patternFields_refl (fields : List (String × Option Syntax.Pattern)) :
    ∀ field ∈ fields, Named (Option.Rel Syntax.Pattern.Permuted) field field :=
  fun field _ => .intro field.1 (Syntax.Option.rel_refl fun p _ => p.permuted_refl)

/-! ## Parts of types and expressions -/

def InvariantType : Syntax.TypeExpr → Prop := Invariant Syntax.TypeExpr.Permuted (canonicalizeType display)

def InvariantExpr (folding : Bool) : Syntax.Expr → Prop :=
  Invariant Syntax.Expr.Permuted (exprTo display folding)

def InvariantBlock (folding : Bool) : Syntax.Block → Prop :=
  Invariant Syntax.Block.Permuted (blockTo display folding)

def InvariantStatement (folding : Bool) : Syntax.Statement → Prop :=
  Invariant Syntax.Statement.Permuted (statementTo display folding)

theorem invariant_typeField (field : String × Syntax.TypeExpr) :
    Invariant (Named Syntax.TypeExpr.Permuted) (typeField display) field ↔ InvariantType display field.2 := by
  apply invariant_named
  intro t' _
  simp [typeField]

theorem typeFields_refl (fields : List (String × Syntax.TypeExpr)) :
    ∀ field ∈ fields, Named Syntax.TypeExpr.Permuted field field :=
  fun field _ => .intro field.1 field.2.permuted_refl

theorem invariant_variant (variant : String × Option Syntax.TypeExpr) :
    Invariant (Named (Option.Rel Syntax.TypeExpr.Permuted)) (variantOf display) variant ↔
      ∀ t ∈ variant.2, InvariantType display t := by
  obtain ⟨name, payload⟩ := variant
  have hnode : Invariant (Named (Option.Rel Syntax.TypeExpr.Permuted)) (variantOf display) (name, payload) ↔
      Invariant (Option.Rel Syntax.TypeExpr.Permuted) (Option.map (canonicalizeType display)) payload := by
    apply invariant_named
    intro payload' _
    simp [variantOf]
  exact hnode.trans invariant_option

theorem variants_refl (variants : List (String × Option Syntax.TypeExpr)) :
    ∀ variant ∈ variants, Named (Option.Rel Syntax.TypeExpr.Permuted) variant variant :=
  fun variant _ => .intro variant.1 (Syntax.Option.rel_refl fun t _ => t.permuted_refl)

theorem invariant_field (folding : Bool) (field : String × Syntax.Expr) :
    Invariant (Named Syntax.Expr.Permuted) (fieldTo display folding) field ↔
      InvariantExpr display folding field.2 := by
  apply invariant_named
  intro e' _
  simp [fieldTo]

theorem canonicalizeEffect_injective : Function.Injective canonicalizeEffect := by
  rintro ⟨name, arg⟩ ⟨name', arg'⟩ h
  obtain ⟨rfl, harg⟩ : name = name' ∧ _ := by simpa [canonicalizeEffect] using h
  match arg, arg', harg with
  | none, none, _ => rfl
  | some (.str _), some (.str _), rfl => rfl
  | some (.int _), some (.int _), rfl => rfl
  | some (.ident _), some (.ident _), rfl => rfl

/-- Effects that are sorted do not show their order if those of one name have one argument. -/
theorem invariant_effects (effects : List Syntax.Effect) :
    Invariant (Reordered Eq) (fun effects => sortBy Effect.name (effects.map canonicalizeEffect)) effects ↔
      OneOfEachName effects := by
  have hself : ∀ effect, Invariant Eq canonicalizeEffect effect := by
    rintro effect _ rfl
    rfl
  rw [invariant_sorted Effect.name fun _ _ => rfl]
  simp only [hself, implies_true, true_and, canonicalizeEffect_injective.eq_iff]
  rfl

/-! ## Types -/

/-- Under a name, in order. -/
theorem invariant_types (ts : List Syntax.TypeExpr) :
    Invariant (Forall₂ Syntax.TypeExpr.Permuted) (List.map (canonicalizeType display)) ts ↔
      ∀ t ∈ ts, InvariantType display t :=
  invariant_forall₂ fun t _ => t.permuted_refl

theorem invariant_named_iff (name : String) (args : List Syntax.TypeExpr) :
    InvariantType display (.named name args) ↔ ∀ t ∈ args, InvariantType display t := by
  rw [← invariant_types]
  exact invariant_node (Syntax.TypeExpr.named name)
    (.named name) (fun | _, .named _ h => ⟨_, h, rfl⟩)
    fun _ _ => by simp [canonicalizeType, canonicalizeTypes_eq_map]

theorem invariant_recordType_iff (fields : List (String × Syntax.TypeExpr)) :
    InvariantType display (.record fields) ↔ (∀ field ∈ fields, InvariantType display field.2) ∧
      ∀ field ∈ fields, ∀ field' ∈ fields, field.1 = field'.1 →
        typeField display field = typeField display field' := by
  simp only [← invariant_typeField]
  refine .trans ?_ (invariant_sorted Prod.fst (typeFields_refl fields))
  exact invariant_node Syntax.TypeExpr.record
    .record (fun | _, .record h => ⟨_, h, rfl⟩)
    fun _ _ => by simp [canonicalizeType, canonicalizeTypeFields_eq_map]

theorem invariant_tupleType_iff (items : List Syntax.TypeExpr) :
    InvariantType display (.tuple items) ↔ ∀ t ∈ items, InvariantType display t := by
  rw [← invariant_types]
  exact invariant_node Syntax.TypeExpr.tuple
    .tuple (fun | _, .tuple h => ⟨_, h, rfl⟩)
    fun _ _ => by simp [canonicalizeType, canonicalizeTypes_eq_map]

theorem invariant_function_iff (params : List Syntax.TypeExpr) (effects : List Syntax.Effect)
    (effectRowVar : Option String) (ret : Syntax.TypeExpr) :
    InvariantType display (.function params effects effectRowVar ret) ↔
      (∀ t ∈ params, InvariantType display t) ∧ OneOfEachName effects ∧ InvariantType display ret := by
  have heffects : Reordered Eq effects effects := Reordered.refl fun _ _ => rfl
  rw [← invariant_types, ← invariant_effects]
  refine .trans ?_ (and_congr_right fun _ => invariant_both heffects ret.permuted_refl)
  refine invariant_node₂ (fun params (rest : List Syntax.Effect × Syntax.TypeExpr) =>
    Syntax.TypeExpr.function params rest.1 effectRowVar rest.2) (b := (effects, ret))
    (forall₂_refl fun t _ => t.permuted_refl) (.intro heffects ret.permuted_refl)
    (fun hparams ⟨heffects, hret⟩ => .function effectRowVar hparams heffects hret) ?_ ?_
  · rintro y ⟨⟩
    rename_i hparams heffects hret
    exact ⟨_, (_, _), hparams, .intro heffects hret, rfl⟩
  · rintro params' ⟨effects', ret'⟩ - -
    simp [canonicalizeType, canonicalizeTypes_eq_map]

theorem invariant_union_iff (variants : List (String × Option Syntax.TypeExpr)) :
    InvariantType display (.union variants) ↔ (∀ variant ∈ variants, ∀ t ∈ variant.2, InvariantType display t) ∧
        ∀ variant ∈ variants, ∀ variant' ∈ variants, variant.1 = variant'.1 →
          variantOf display variant = variantOf display variant' := by
  simp only [← invariant_variant]
  refine .trans ?_ (invariant_sorted Prod.fst (variants_refl variants))
  exact invariant_node Syntax.TypeExpr.union
    .union (fun | _, .union h => ⟨_, h, rfl⟩)
    fun _ _ => by simp [canonicalizeType, canonicalizeVariants_eq_map]

theorem invariant_recordWithSpreads_iff (spreads : List String) (fields : List (String × Syntax.TypeExpr)) :
    InvariantType display (.recordWithSpreads spreads fields) ↔ (∀ field ∈ fields, InvariantType display field.2) ∧
        ∀ field ∈ fields, ∀ field' ∈ fields, typeField display field = typeField display field' := by
  simp only [← invariant_typeField]
  refine .trans ?_ (invariant_unsorted (typeFields_refl fields))
  exact invariant_node (Syntax.TypeExpr.recordWithSpreads spreads)
    (.recordWithSpreads spreads) (fun | _, .recordWithSpreads _ h => ⟨_, h, rfl⟩)
    fun _ _ => by simp [canonicalizeType, canonicalizeTypeFields_eq_map]

theorem invariant_refined_iff (base : Syntax.TypeExpr) (binding : String) (predicate : Syntax.Expr) :
    InvariantType display (.refined base binding predicate) ↔
      InvariantType display base ∧ InvariantExpr display false predicate := by
  refine invariant_node₂ (fun base predicate => Syntax.TypeExpr.refined base binding predicate)
    base.permuted_refl predicate.permuted_refl (.refined binding) ?_ ?_
  · rintro y ⟨⟩
    rename_i hbase hpredicate
    exact ⟨_, _, hbase, hpredicate, rfl⟩
  · intro base' predicate' _ _
    simp [canonicalizeType, exprTo_false]

/-! ## Blocks and statements -/

section Blocks

variable (folding : Bool)

theorem sort_statementTo {stmt stmt' : Syntax.Statement} (h : stmt.Permuted stmt') :
    (statementTo display folding stmt).sort = (statementTo display folding stmt').sort := by
  match h with
  | .letS name _ _ => rw [statementTo_letS, statementTo_letS]; rfl
  | .expr _ => rw [statementTo_expr]; rfl

theorem sort_statements {stmts stmts' : List Syntax.Statement}
    (h : Forall₂ Syntax.Statement.Permuted stmts stmts') :
    (stmts.map (statementTo display folding)).map CStatement.sort =
      (stmts'.map (statementTo display folding)).map CStatement.sort := by
  induction h with
  | nil => rfl
  | cons hstmt _ ih =>
    simp only [map_cons] at ih ⊢
    rw [ih, sort_statementTo display folding hstmt]

theorem invariant_block_iff (statements : List Syntax.Statement) (result : Syntax.Expr) :
    InvariantBlock display folding (.mk statements result) ↔
      (∀ stmt ∈ statements, InvariantStatement display folding stmt) ∧ InvariantExpr display folding result := by
  have hrefl : ∀ stmt ∈ statements, stmt.Permuted stmt := fun stmt _ => stmt.permuted_refl
  refine .trans ?_ (and_congr_left fun _ => invariant_forall₂ hrefl)
  refine invariant_node₂ Syntax.Block.mk (forall₂_refl hrefl) result.permuted_refl .mk ?_ ?_
  · rintro y ⟨hstmts, hresult⟩
    exact ⟨_, _, hstmts, hresult, rfl⟩
  · intro statements' result' hstmts _
    rw [blockTo_mk, blockTo_mk, foldBlock_inj (sort_statements display folding hstmts).symm]

theorem invariant_letS_iff (name : String) (ty : Option Syntax.TypeExpr) (value : Syntax.Expr) :
    InvariantStatement display folding (.letS name ty value) ↔
      (∀ t ∈ ty, InvariantType display t) ∧ InvariantExpr display folding value := by
  refine .trans ?_ (and_congr_left fun _ => invariant_option)
  refine invariant_node₂ (Syntax.Statement.letS name) (Syntax.Option.rel_refl fun t _ => t.permuted_refl)
    value.permuted_refl (.letS name) ?_ ?_
  · rintro y ⟨⟩
    rename_i hty hvalue
    exact ⟨_, _, hty, hvalue, rfl⟩
  · intro ty' value' _ _
    rw [statementTo_letS, statementTo_letS]
    simp

theorem invariant_statementExpr_iff (e : Syntax.Expr) :
    InvariantStatement display folding (.expr e) ↔ InvariantExpr display folding e :=
  invariant_node Syntax.Statement.expr
    .expr (fun | _, .expr h => ⟨_, h, rfl⟩)
    fun _ _ => by rw [statementTo_expr, statementTo_expr, CStatement.expr.injEq]

end Blocks

/-! ## What the order of entries leaves as it is -/

/-- A block with a statement is a let or a block. -/
theorem foldBlock_cons (stmt : CStatement) (stmts : List CStatement) (result : CExpr) :
    headOf (foldBlock (stmt :: stmts) result) = .other ∧ literalOf (foldBlock (stmt :: stmts) result) = none := by
  show headOf (flushPending (foldStatement stmt _).2 (foldStatement stmt _).1) = _ ∧
    literalOf (flushPending (foldStatement stmt _).2 (foldStatement stmt _).1) = _
  match stmt with
  | .letS name ty value => simp [foldStatement, headOf, literalOf]
  | .expr e => simp [foldStatement, headOf, literalOf]

/-- Two expressions a pipe and the pass cannot tell apart. -/
def Alike (e e' : CExpr) : Prop := headOf e' = headOf e ∧ literalOf e' = literalOf e

theorem patternMatches_permuted {p p' : Syntax.Pattern} (h : p.Permuted p') (l : CLit) :
    patternMatchesLiteral (canonicalizePattern display p') l =
      patternMatchesLiteral (canonicalizePattern display p) l := by
  match h with
  | .lit _ | .var _ | .wild => rfl
  | .constructor _ _ | .record _ _ | .tuple _ => simp [canonicalizePattern, patternMatchesLiteral]

variable {arms : List (Syntax.Pattern × Syntax.Expr)}

variable {arms' : List (Syntax.Pattern × Syntax.Expr)}

/-- The arm taken is at the same place. -/
theorem find?_permuted (l : CLit) (h : Forall₂ (Both Syntax.Pattern.Permuted Syntax.Expr.Permuted) arms arms') :
    Option.Rel (Both Syntax.Pattern.Permuted Syntax.Expr.Permuted)
      (arms.find? fun arm => patternMatchesLiteral (canonicalizePattern display arm.1) l)
      (arms'.find? fun arm => patternMatchesLiteral (canonicalizePattern display arm.1) l) := by
  induction h with
  | nil => exact .none
  | cons harm _ ih =>
    match harm with
    | .intro hpattern hbody =>
      rw [find?_cons, find?_cons, patternMatches_permuted display hpattern]
      split
      · exact .some (.intro hpattern hbody)
      · exact ih

theorem literalOfArms_canonicalize (l : CLit) (arms : List (Syntax.Pattern × Syntax.Expr)) :
    literalOfArms l (canonicalizeArms display arms) =
      (arms.find? fun arm => patternMatchesLiteral (canonicalizePattern display arm.1) l).bind
        fun arm => literalOf (canonicalizeExpr display arm.2) := by
  rw [literalOfArms_eq, canonicalizeArms_eq_map, find?_map, bind_map]
  rfl

theorem headOf_pipeInto (left right : CExpr) :
    headOf (pipeInto left right) = (match headOf right with | .constructor => .constructor | _ => .call) := by
  unfold pipeInto
  split <;> simp [headOf]

theorem literalOf_pipeInto (left right : CExpr) : literalOf (pipeInto left right) = none := by
  unfold pipeInto
  split <;> simp [literalOf]

variable {e e' : Syntax.Expr}

theorem constructorOf_permuted (h : e.Permuted e') : constructorOf e' = constructorOf e := by
  cases h <;> rfl

/-- A match comes to the literal of its arm. -/
theorem literalOf_match (scrutinee : Syntax.Expr) (arms : List (Syntax.Pattern × Syntax.Expr)) :
    literalOf (canonicalizeExpr display (.matchE scrutinee arms)) =
      (literalOf (canonicalizeExpr display scrutinee)).bind fun l =>
        (arms.find? fun arm => patternMatchesLiteral (canonicalizePattern display arm.1) l).bind
          fun arm => literalOf (canonicalizeExpr display arm.2) := by
  simp only [canonicalizeExpr, literalOf, literalOfArms_canonicalize]

/-- **An expression stays what a pipe and the pass see of it.** -/
theorem alike_steps : Syntax.TreeSteps (fun _ => True)
    (fun e => ∀ e', e.Permuted e' → Alike (canonicalizeExpr display e) (canonicalizeExpr display e'))
    (fun b => ∀ b', b.Permuted b' → Alike (canonicalizeBlock display b) (canonicalizeBlock display b'))
    (fun _ => True) where
  named _ _ _ := trivial
  record _ _ := trivial
  tuple _ _ := trivial
  function _ _ _ _ _ _ := trivial
  union _ _ := trivial
  recordWithSpreads _ _ _ := trivial
  refined _ _ _ _ _ := trivial
  lit _ := by
    rintro _ ⟨⟩
    exact ⟨rfl, rfl⟩
  var _ := by
    rintro _ ⟨⟩
    exact ⟨rfl, rfl⟩
  block _ hb := by
    intro _ h
    cases h with
    | block h => simpa only [canonicalizeExpr] using hb _ h
  call _ _ _ _ := by
    intro _ h
    cases h with
    | call hcallee _ =>
      rw [canonicalizeExpr_call, canonicalizeExpr_call, constructorOf_permuted hcallee]
      split
      · exact ⟨rfl, by simp [literalOf]⟩
      · exact ⟨rfl, by simp [literalOf]⟩
  pipe _ _ _ hright := by
    intro _ h
    cases h with
    | pipe _ h =>
      simp only [canonicalizeExpr, Alike, headOf_pipeInto, literalOf_pipeInto, (hright _ h).1, and_self]
  tryE _ _ := by
    rintro _ ⟨⟩
    simp [canonicalizeExpr, Alike, headOf, literalOf, tryMatch, literalOfArms, patternMatchesLiteral]
  field _ _ _ := by
    rintro _ ⟨⟩
    simp [canonicalizeExpr, Alike, headOf, literalOf]
  binOp _ _ _ _ _ := by
    rintro _ ⟨⟩
    simp [canonicalizeExpr, Alike, headOf, literalOf]
  unaryOp _ _ _ := by
    rintro _ ⟨⟩
    simp [canonicalizeExpr, Alike, headOf, literalOf]
  ifE _ _ _ hcond hthen helse := by
    intro _ h
    cases h with
    | ifE hc ht he =>
      have hc := hcond _ hc
      have ht := hthen _ ht
      have he := helse _ he
      simp only [canonicalizeExpr, Alike, headOf, literalOf, literalOfArms, hc.2, ht.2, he.2, and_self]
  matchE _ _ hscrutinee harms := by
    intro _ h
    cases h with
    | matchE hs ha =>
      refine ⟨by simp [canonicalizeExpr, headOf], ?_⟩
      rw [literalOf_match, literalOf_match, (hscrutinee _ hs).2]
      refine Option.bind_congr fun l _ => ?_
      have hfind := find?_permuted display l ha
      generalize hold : find? _ _ = old at hfind
      generalize find? _ _ = new at hfind
      cases hfind with
      | none => rfl
      | some h =>
        cases h with
        | intro _ hbody => exact (harms _ (mem_of_find?_eq_some hold) _ hbody).2
  recordLit _ _ := by
    rintro _ ⟨⟩
    simp [canonicalizeExpr, Alike, headOf, literalOf]
  tupleLit _ _ := by
    rintro _ ⟨⟩
    simp [canonicalizeExpr, Alike, headOf, literalOf]
  listLit _ _ := by
    rintro _ ⟨⟩
    simp [canonicalizeExpr, Alike, headOf, literalOf]
  constructor _ _ _ := by
    rintro _ ⟨⟩
    simp [canonicalizeExpr, Alike, headOf, literalOf]
  lambda _ _ _ _ _ _ _ _ := by
    rintro _ ⟨⟩
    simp [canonicalizeExpr, Alike, headOf, literalOf]
  ascription _ _ _ _ := by
    rintro _ ⟨⟩
    simp [canonicalizeExpr, Alike, headOf, literalOf]
  statements _ _ _ hresult := by
    intro _ h
    cases h with
    | mk hs hr =>
      cases hs with
      | nil =>
        rw [canonicalizeBlock, canonicalizeBlock, canonicalizeStatements]
        exact hresult _ hr
      | cons _ _ =>
        simp only [canonicalizeBlock, canonicalizeStatements, Alike, foldBlock_cons, and_self]
  letS _ _ _ _ _ := trivial
  expr _ _ := trivial

theorem alike_expr (h : e.Permuted e') : Alike (canonicalizeExpr display e) (canonicalizeExpr display e') :=
  (alike_steps display).onExpr e e' h

/-! ## Expressions -/

section Expressions

variable (folding : Bool)

theorem invariant_exprs (es : List Syntax.Expr) :
    Invariant (Forall₂ Syntax.Expr.Permuted) (List.map (exprTo display folding)) es ↔
      ∀ e ∈ es, InvariantExpr display folding e :=
  invariant_forall₂ fun e _ => e.permuted_refl

theorem exprs_refl (es : List Syntax.Expr) : Forall₂ Syntax.Expr.Permuted es es :=
  forall₂_refl fun e _ => e.permuted_refl

/-- A callee that names a constructor is a name, and has no other presentation. -/
theorem eq_of_constructorOf {name : String} (hname : constructorOf e = some name) (h : e.Permuted e') : e' = e := by
  cases h <;> first | rfl | exact absurd hname (by simp [constructorOf])

theorem invariant_call_iff (callee : Syntax.Expr) (args : List Syntax.Expr) :
    InvariantExpr display folding (.call callee args) ↔
      InvariantExpr display folding callee ∧ ∀ e ∈ args, InvariantExpr display folding e := by
  rw [← invariant_exprs]
  refine invariant_node₂ Syntax.Expr.call callee.permuted_refl (exprs_refl args) .call ?_ ?_
  · rintro y ⟨⟩
    rename_i hcallee hargs
    exact ⟨_, _, hcallee, hargs, rfl⟩
  · intro callee' args' hcallee _
    rw [exprTo_call, exprTo_call, constructorOf_permuted hcallee]
    split
    · rename_i name hname
      rw [eq_of_constructorOf hname hcallee]
      simp
    · simp

theorem invariant_pipe_iff (left right : Syntax.Expr) : InvariantExpr display folding (.pipe left right) ↔
      InvariantExpr display folding left ∧ InvariantExpr display folding right := by
  refine invariant_node₂ Syntax.Expr.pipe left.permuted_refl right.permuted_refl .pipe ?_ ?_
  · rintro y ⟨⟩
    rename_i hleft hright
    exact ⟨_, _, hleft, hright, rfl⟩
  · intro left' right' _ hright
    unfold exprTo
    rw [canonicalizeExpr, canonicalizeExpr, pipeInto_inj folding (alike_expr display hright).1]

theorem invariant_exprBlock_iff (b : Syntax.Block) :
    InvariantExpr display folding (.block b) ↔ InvariantBlock display folding b :=
  invariant_node Syntax.Expr.block
    .block (fun | _, .block h => ⟨_, h, rfl⟩)
    fun _ _ => by simp [exprTo, blockTo, canonicalizeExpr]

theorem invariant_tryE_iff (inner : Syntax.Expr) :
    InvariantExpr display folding (.tryE inner) ↔ InvariantExpr display folding inner :=
  invariant_node Syntax.Expr.tryE
    .tryE (fun | _, .tryE h => ⟨_, h, rfl⟩)
    fun _ _ => by simp only [exprTo, canonicalizeExpr, comesTo_tryMatch, tryMatch_inj]

theorem invariant_fieldAccess_iff (value : Syntax.Expr) (field : String) :
    InvariantExpr display folding (.field value field) ↔ InvariantExpr display folding value :=
  invariant_node (fun value => Syntax.Expr.field value field)
    (.field field) (fun | _, .field _ h => ⟨_, h, rfl⟩)
    fun _ _ => by simp [exprTo, canonicalizeExpr]

theorem invariant_binOp_iff (op : Syntax.BinOp) (lhs rhs : Syntax.Expr) :
    InvariantExpr display folding (.binOp op lhs rhs) ↔
      InvariantExpr display folding lhs ∧ InvariantExpr display folding rhs := by
  refine invariant_node₂ (Syntax.Expr.binOp op) lhs.permuted_refl rhs.permuted_refl (.binOp op) ?_ ?_
  · rintro y ⟨⟩
    rename_i hlhs hrhs
    exact ⟨_, _, hlhs, hrhs, rfl⟩
  · intro lhs' rhs' _ _
    simp [exprTo, canonicalizeExpr]

theorem invariant_unaryOp_iff (op : Syntax.UnaryOp) (expr : Syntax.Expr) :
    InvariantExpr display folding (.unaryOp op expr) ↔ InvariantExpr display folding expr :=
  invariant_node (Syntax.Expr.unaryOp op)
    (.unaryOp op) (fun | _, .unaryOp _ h => ⟨_, h, rfl⟩)
    fun _ _ => by simp [exprTo, canonicalizeExpr]

theorem invariant_recordLit_iff (fields : List (String × Syntax.Expr)) :
    InvariantExpr display folding (.recordLit fields) ↔ (∀ field ∈ fields, InvariantExpr display folding field.2) ∧
        ∀ field ∈ fields, ∀ field' ∈ fields, field.1 = field'.1 →
          fieldTo display folding field = fieldTo display folding field' := by
  simp only [← invariant_field]
  have hrefl : ∀ field ∈ fields, Named Syntax.Expr.Permuted field field :=
    fun field _ => .intro field.1 field.2.permuted_refl
  refine .trans ?_ (invariant_sorted Prod.fst hrefl)
  exact invariant_node Syntax.Expr.recordLit
    .recordLit (fun | _, .recordLit h => ⟨_, h, rfl⟩)
    fun _ _ => by rw [exprTo_recordLit, exprTo_recordLit, CExpr.recordLit.injEq]

theorem invariant_tupleLit_iff (items : List Syntax.Expr) :
    InvariantExpr display folding (.tupleLit items) ↔ ∀ e ∈ items, InvariantExpr display folding e := by
  rw [← invariant_exprs]
  exact invariant_node Syntax.Expr.tupleLit
    .tupleLit (fun | _, .tupleLit h => ⟨_, h, rfl⟩)
    fun _ _ => by simp [exprTo, canonicalizeExpr, ← exprTo_items]

theorem invariant_listLit_iff (items : List Syntax.Expr) :
    InvariantExpr display folding (.listLit items) ↔ ∀ e ∈ items, InvariantExpr display folding e := by
  rw [← invariant_exprs]
  exact invariant_node Syntax.Expr.listLit
    .listLit (fun | _, .listLit h => ⟨_, h, rfl⟩)
    fun _ _ => by simp [exprTo, canonicalizeExpr, ← exprTo_items]

theorem invariant_constructor_iff (name : String) (args : List Syntax.Expr) :
    InvariantExpr display folding (.constructor name args) ↔ ∀ e ∈ args, InvariantExpr display folding e := by
  rw [← invariant_exprs]
  exact invariant_node (Syntax.Expr.constructor name)
    (.constructor name) (fun | _, .constructor _ h => ⟨_, h, rfl⟩)
    fun _ _ => by simp [exprTo, canonicalizeExpr, ← exprTo_items]

theorem invariant_lambda_iff (params : List (String × Syntax.TypeExpr)) (returnType : Syntax.TypeExpr)
    (effects : List Syntax.Effect) (effectRowVar : Option String) (body : Syntax.Block) :
    InvariantExpr display folding (.lambda params returnType effects effectRowVar body) ↔
      ((∀ param ∈ params, InvariantType display param.2) ∧ InvariantType display returnType) ∧
        OneOfEachName effects ∧ InvariantBlock display folding body := by
  have heffects : Reordered Eq effects effects := Reordered.refl fun _ _ => rfl
  have hparams := forall₂_refl (typeFields_refl params)
  simp only [← invariant_typeField]
  rw [← invariant_effects, ← invariant_forall₂ (typeFields_refl params)]
  refine .trans ?_ (and_congr (invariant_both hparams returnType.permuted_refl)
    (invariant_both heffects body.permuted_refl))
  refine invariant_node₂ (fun (signature : List (String × Syntax.TypeExpr) × Syntax.TypeExpr)
      (rest : List Syntax.Effect × Syntax.Block) =>
    Syntax.Expr.lambda signature.1 signature.2 rest.1 effectRowVar rest.2) (a := (params, returnType))
    (b := (effects, body)) (.intro hparams returnType.permuted_refl) (.intro heffects body.permuted_refl)
    (fun ⟨hparams, hreturn⟩ ⟨heffects, hbody⟩ => .lambda effectRowVar hparams hreturn heffects hbody) ?_ ?_
  · rintro y ⟨⟩
    rename_i hparams hreturn heffects hbody
    exact ⟨(_, _), (_, _), .intro hparams hreturn, .intro heffects hbody, rfl⟩
  · rintro ⟨params', returnType'⟩ ⟨effects', body'⟩ - -
    simp only [exprTo, canonicalizeExpr, canonicalizeTypeFields_eq_map, comesTo_lambda,
      CExpr.lambda.injEq, Prod.map_apply, Prod.mk.injEq]
    tauto

theorem invariant_ascription_iff (value : Syntax.Expr) (ty : Syntax.TypeExpr) :
    InvariantExpr display folding (.ascription value ty) ↔
      InvariantExpr display folding value ∧ InvariantType display ty := by
  refine invariant_node₂ Syntax.Expr.ascription value.permuted_refl ty.permuted_refl .ascription ?_ ?_
  · rintro y ⟨⟩
    rename_i hvalue hty
    exact ⟨_, _, hvalue, hty, rfl⟩
  · intro value' ty' _ _
    simp only [exprTo, canonicalizeExpr, comesTo_letE, CExpr.letE.injEq, some.injEq]
    tauto

end Expressions

/-! ## Matches -/

section Matches

variable (folding : Bool)

variable {scrutinee : Syntax.Expr}

/-- Which arm is taken does not depend on the order of entries. -/
theorem takenArm_permuted {scrutinee' : Syntax.Expr} (hscrutinee : scrutinee.Permuted scrutinee')
    (harms : Forall₂ (Both Syntax.Pattern.Permuted Syntax.Expr.Permuted) arms arms') :
    Option.Rel (Both Syntax.Pattern.Permuted Syntax.Expr.Permuted) (takenArm display folding scrutinee arms)
      (takenArm display folding scrutinee' arms') := by
  unfold takenArm
  split
  · rw [(alike_expr display hscrutinee).2]
    match literalOf (canonicalizeExpr display scrutinee) with
    | none => exact .none
    | some l => exact find?_permuted display l harms
  · exact .none

theorem arms_refl (arms : List (Syntax.Pattern × Syntax.Expr)) :
    ∀ arm ∈ arms, Both Syntax.Pattern.Permuted Syntax.Expr.Permuted arm arm :=
  fun arm _ => .intro arm.1.permuted_refl arm.2.permuted_refl

variable {arm : Syntax.Pattern × Syntax.Expr}

/-- The arm taken, presented otherwise, is the arm taken. -/
theorem exists_takenArm (htaken : takenArm display folding scrutinee arms = some arm)
    {body' : Syntax.Expr} (hbody : arm.2.Permuted body') :
    ∃ arms', Forall₂ (Both Syntax.Pattern.Permuted Syntax.Expr.Permuted) arms arms' ∧
      takenArm display folding scrutinee arms' = some (arm.1, body') := by
  unfold takenArm at htaken ⊢
  split at htaken
  · rename_i hfolding
    obtain ⟨l, hl, hfind⟩ := bind_eq_some_iff.mp htaken
    obtain ⟨hmatches, before, after, rfl, hbefore⟩ := find?_eq_some_iff_append.mp hfind
    refine ⟨before ++ (arm.1, body') :: after, ?_, ?_⟩
    · exact forall₂_at (arms_refl _) (.intro arm.1.permuted_refl hbody)
    · rw [if_pos hfolding, hl]
      exact find?_eq_some_iff_append.mpr ⟨hmatches, before, after, rfl, hbefore⟩
  · exact nomatch htaken

theorem invariant_matchTaken_iff (htaken : takenArm display folding scrutinee arms = some arm) :
    InvariantExpr display folding (.matchE scrutinee arms) ↔ InvariantExpr display folding arm.2 := by
  constructor
  · intro h body' hbody
    obtain ⟨arms', harms, htaken'⟩ := exists_takenArm display folding htaken hbody
    have heq := h _ (.matchE scrutinee.permuted_refl harms)
    rw [exprTo_match, exprTo_match, htaken, htaken'] at heq
    exact heq
  · intro h y hy
    match hy with
    | .matchE hscrutinee harms =>
      have hrel := takenArm_permuted display folding hscrutinee harms
      rw [htaken] at hrel
      rw [exprTo_match, exprTo_match, htaken]
      generalize takenArm display folding _ _ = taken' at hrel
      match arm, taken', hrel with
      | _, some _, .some (.intro _ hbody) => exact h _ hbody

theorem invariant_matchOpen_iff (hopen : takenArm display folding scrutinee arms = none) :
    InvariantExpr display folding (.matchE scrutinee arms) ↔ InvariantExpr display folding scrutinee ∧
      ∀ arm ∈ arms, InvariantPattern display arm.1 ∧ InvariantExpr display folding arm.2 := by
  have harm : ∀ arm : Syntax.Pattern × Syntax.Expr,
      Invariant (Both Syntax.Pattern.Permuted Syntax.Expr.Permuted) (armTo display folding) arm ↔
        InvariantPattern display arm.1 ∧ InvariantExpr display folding arm.2 :=
    fun arm => invariant_both arm.1.permuted_refl arm.2.permuted_refl
  simp only [← harm]
  refine .trans ?_ (and_congr_right fun _ => invariant_forall₂ (arms_refl arms))
  refine invariant_node₂ Syntax.Expr.matchE scrutinee.permuted_refl (forall₂_refl (arms_refl arms)) .matchE ?_ ?_
  · rintro y ⟨⟩
    rename_i hscrutinee harms
    exact ⟨_, _, hscrutinee, harms, rfl⟩
  · intro scrutinee' arms' hscrutinee harms
    have hopen' : takenArm display folding scrutinee' arms' = none := by
      have hrel := takenArm_permuted display folding hscrutinee harms
      rw [hopen] at hrel
      match takenArm display folding scrutinee' arms', hrel with
      | none, _ => rfl
    rw [exprTo_match, exprTo_match, hopen, hopen', CExpr.matchE.injEq]

end Matches

/-! ## Branches -/

section Branches

variable (folding : Bool)

variable {cond : Syntax.Expr} {thenBlock elseBlock : Syntax.Block}

theorem invariant_ifTaken_iff {b : Syntax.Block}
    (htaken : takenBlock display folding cond thenBlock elseBlock = some b) :
    InvariantExpr display folding (.ifE cond thenBlock elseBlock) ↔ InvariantBlock display folding b := by
  have htaken' := htaken
  rw [takenBlock_eq_some_iff] at htaken
  constructor
  · intro h b' hb
    obtain ⟨hfolding, ⟨hl, rfl⟩ | ⟨hl, rfl⟩⟩ := htaken
    · have hother : takenBlock display folding cond b' elseBlock = some b' :=
        (takenBlock_eq_some_iff display folding).mpr ⟨hfolding, .inl ⟨hl, rfl⟩⟩
      have heq := h _ (.ifE cond.permuted_refl hb elseBlock.permuted_refl)
      rw [exprTo_if, exprTo_if, htaken', hother] at heq
      exact heq
    · have hother : takenBlock display folding cond thenBlock b' = some b' :=
        (takenBlock_eq_some_iff display folding).mpr ⟨hfolding, .inr ⟨hl, rfl⟩⟩
      have heq := h _ (.ifE cond.permuted_refl thenBlock.permuted_refl hb)
      rw [exprTo_if, exprTo_if, htaken', hother] at heq
      exact heq
  · intro h y hy
    match hy with
    | .ifE hcond hthen helse =>
      have hliteral := (alike_expr display hcond).2
      obtain ⟨hfolding, ⟨hl, rfl⟩ | ⟨hl, rfl⟩⟩ := htaken
      · rw [exprTo_if, exprTo_if, htaken',
          (takenBlock_eq_some_iff display folding).mpr ⟨hfolding, .inl ⟨hliteral.trans hl, rfl⟩⟩]
        exact h _ hthen
      · rw [exprTo_if, exprTo_if, htaken',
          (takenBlock_eq_some_iff display folding).mpr ⟨hfolding, .inr ⟨hliteral.trans hl, rfl⟩⟩]
        exact h _ helse

theorem takenBlock_eq_none {cond' : Syntax.Expr} {thenBlock' elseBlock' : Syntax.Block}
    (hcond : cond.Permuted cond') (hopen : takenBlock display folding cond thenBlock elseBlock = none) :
    takenBlock display folding cond' thenBlock' elseBlock' = none := by
  unfold takenBlock at hopen ⊢
  rw [(alike_expr display hcond).2]
  split at hopen
  · rename_i hfolding
    rw [if_pos hfolding]
    split at hopen
    · exact nomatch hopen
    · exact nomatch hopen
    · rfl
  · rename_i hfolding
    rw [if_neg hfolding]

theorem invariant_ifOpen_iff (hopen : takenBlock display folding cond thenBlock elseBlock = none) :
    InvariantExpr display folding (.ifE cond thenBlock elseBlock) ↔ InvariantExpr display folding cond ∧
      InvariantBlock display folding thenBlock ∧ InvariantBlock display folding elseBlock := by
  have hblocks := invariant_both (o := blockTo display folding) (p := blockTo display folding)
    thenBlock.permuted_refl elseBlock.permuted_refl
  refine .trans ?_ (and_congr_right fun _ => hblocks)
  refine invariant_node₂ (fun cond (branches : Syntax.Block × Syntax.Block) =>
    Syntax.Expr.ifE cond branches.1 branches.2) (b := (thenBlock, elseBlock)) cond.permuted_refl
    (.intro thenBlock.permuted_refl elseBlock.permuted_refl)
    (fun hcond ⟨hthen, helse⟩ => .ifE hcond hthen helse) ?_ ?_
  · rintro y ⟨⟩
    rename_i hcond hthen helse
    exact ⟨_, (_, _), hcond, .intro hthen helse, rfl⟩
  · rintro cond' ⟨thenBlock', elseBlock'⟩ hcond -
    rw [exprTo_if, exprTo_if, hopen, takenBlock_eq_none display folding hcond hopen]
    simp

end Branches

end LexLang.Ast
