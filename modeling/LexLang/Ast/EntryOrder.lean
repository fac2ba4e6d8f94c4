/-
# LexLang.Ast.EntryOrder — when the order of entries does not show

Two programs that differ in the order of their entries should canonicalize to the same stages, and so
have the same identities. They do if the program is `Steady`: where entries are sorted, those of one
name are the same; where they are left as written, which is the effects of a function declaration and
the fields beside a spread, all are the same. Parts that are folded away do not count.
-/
import LexLang.Ast.PartOrder

namespace LexLang.Ast

open LexLang.Order
open List

variable (display : BitVec 64 → String)

/-! ## Steady programs -/

inductive SteadyPattern : Syntax.Pattern → Prop
  | lit (l : Syntax.Literal) : SteadyPattern (.lit l)
  | var (name : String) : SteadyPattern (.var name)
  | wild : SteadyPattern .wild
  | constructor (name : String) {args : List Syntax.Pattern} (hargs : ∀ p ∈ args, SteadyPattern p) :
      SteadyPattern (.constructor name args)
  | record (rest : Bool) {fields : List (String × Option Syntax.Pattern)}
      (hfields : ∀ field ∈ fields, ∀ p ∈ field.2, SteadyPattern p)
      (hsame : ∀ field ∈ fields, ∀ field' ∈ fields, field.1 = field'.1 →
        patternField display field = patternField display field') :
      SteadyPattern (.record fields rest)
  | tuple {items : List Syntax.Pattern} (hitems : ∀ p ∈ items, SteadyPattern p) :
      SteadyPattern (.tuple items)

mutual

inductive SteadyType : Syntax.TypeExpr → Prop
  | named (name : String) {args : List Syntax.TypeExpr} (hargs : ∀ t ∈ args, SteadyType t) :
      SteadyType (.named name args)
  | record {fields : List (String × Syntax.TypeExpr)} (hfields : ∀ field ∈ fields, SteadyType field.2)
      (hsame : ∀ field ∈ fields, ∀ field' ∈ fields, field.1 = field'.1 →
        typeField display field = typeField display field') : SteadyType (.record fields)
  | tuple {items : List Syntax.TypeExpr} (hitems : ∀ t ∈ items, SteadyType t) : SteadyType (.tuple items)
  | function (effectRowVar : Option String) {params : List Syntax.TypeExpr} {effects : List Syntax.Effect}
      {ret : Syntax.TypeExpr} (hparams : ∀ t ∈ params, SteadyType t) (heffects : OneOfEachName effects)
      (hret : SteadyType ret) : SteadyType (.function params effects effectRowVar ret)
  | union {variants : List (String × Option Syntax.TypeExpr)}
      (hvariants : ∀ variant ∈ variants, ∀ t ∈ variant.2, SteadyType t)
      (hsame : ∀ variant ∈ variants, ∀ variant' ∈ variants, variant.1 = variant'.1 →
        variantOf display variant = variantOf display variant') : SteadyType (.union variants)
  /-- Beside a spread nothing is sorted. -/
  | recordWithSpreads (spreads : List String) {fields : List (String × Syntax.TypeExpr)}
      (hfields : ∀ field ∈ fields, SteadyType field.2)
      (hsame : ∀ field ∈ fields, ∀ field' ∈ fields, typeField display field = typeField display field') :
      SteadyType (.recordWithSpreads spreads fields)
  | refined (binding : String) {base : Syntax.TypeExpr} {predicate : Syntax.Expr} (hbase : SteadyType base)
      (hpredicate : SteadyExpr false predicate) : SteadyType (.refined base binding predicate)

inductive SteadyExpr : Bool → Syntax.Expr → Prop
  | lit {folding : Bool} (l : Syntax.Literal) : SteadyExpr folding (.lit l)
  | var {folding : Bool} (name : String) : SteadyExpr folding (.var name)
  | block {folding : Bool} {b : Syntax.Block} (hblock : SteadyBlock folding b) : SteadyExpr folding (.block b)
  | call {folding : Bool} {callee : Syntax.Expr} {args : List Syntax.Expr}
      (hcallee : SteadyExpr folding callee) (hargs : ∀ e ∈ args, SteadyExpr folding e) :
      SteadyExpr folding (.call callee args)
  | pipe {folding : Bool} {left right : Syntax.Expr} (hleft : SteadyExpr folding left)
      (hright : SteadyExpr folding right) : SteadyExpr folding (.pipe left right)
  | tryE {folding : Bool} {inner : Syntax.Expr} (hinner : SteadyExpr folding inner) :
      SteadyExpr folding (.tryE inner)
  | field {folding : Bool} (field : String) {value : Syntax.Expr} (hvalue : SteadyExpr folding value) :
      SteadyExpr folding (.field value field)
  | binOp {folding : Bool} (op : Syntax.BinOp) {lhs rhs : Syntax.Expr} (hlhs : SteadyExpr folding lhs)
      (hrhs : SteadyExpr folding rhs) : SteadyExpr folding (.binOp op lhs rhs)
  | unaryOp {folding : Bool} (op : Syntax.UnaryOp) {expr : Syntax.Expr} (hexpr : SteadyExpr folding expr) :
      SteadyExpr folding (.unaryOp op expr)
  | ifTaken {folding : Bool} {cond : Syntax.Expr} {thenBlock elseBlock b : Syntax.Block}
      (htaken : takenBlock display folding cond thenBlock elseBlock = some b) (hb : SteadyBlock folding b) :
      SteadyExpr folding (.ifE cond thenBlock elseBlock)
  | ifE {folding : Bool} {cond : Syntax.Expr} {thenBlock elseBlock : Syntax.Block}
      (hopen : takenBlock display folding cond thenBlock elseBlock = none) (hcond : SteadyExpr folding cond)
      (hthen : SteadyBlock folding thenBlock) (helse : SteadyBlock folding elseBlock) :
      SteadyExpr folding (.ifE cond thenBlock elseBlock)
  | matchTaken {folding : Bool} {scrutinee : Syntax.Expr} {arms : List (Syntax.Pattern × Syntax.Expr)}
      {arm : Syntax.Pattern × Syntax.Expr} (htaken : takenArm display folding scrutinee arms = some arm)
      (hbody : SteadyExpr folding arm.2) : SteadyExpr folding (.matchE scrutinee arms)
  | matchE {folding : Bool} {scrutinee : Syntax.Expr} {arms : List (Syntax.Pattern × Syntax.Expr)}
      (hopen : takenArm display folding scrutinee arms = none) (hscrutinee : SteadyExpr folding scrutinee)
      (hpatterns : ∀ arm ∈ arms, SteadyPattern display arm.1)
      (hbodies : ∀ arm ∈ arms, SteadyExpr folding arm.2) : SteadyExpr folding (.matchE scrutinee arms)
  | recordLit {folding : Bool} {fields : List (String × Syntax.Expr)}
      (hfields : ∀ field ∈ fields, SteadyExpr folding field.2)
      (hsame : ∀ field ∈ fields, ∀ field' ∈ fields, field.1 = field'.1 →
        fieldTo display folding field = fieldTo display folding field') :
      SteadyExpr folding (.recordLit fields)
  | tupleLit {folding : Bool} {items : List Syntax.Expr} (hitems : ∀ e ∈ items, SteadyExpr folding e) :
      SteadyExpr folding (.tupleLit items)
  | listLit {folding : Bool} {items : List Syntax.Expr} (hitems : ∀ e ∈ items, SteadyExpr folding e) :
      SteadyExpr folding (.listLit items)
  | constructor {folding : Bool} (name : String) {args : List Syntax.Expr}
      (hargs : ∀ e ∈ args, SteadyExpr folding e) : SteadyExpr folding (.constructor name args)
  | lambda {folding : Bool} (effectRowVar : Option String) {params : List (String × Syntax.TypeExpr)}
      {returnType : Syntax.TypeExpr} {effects : List Syntax.Effect} {body : Syntax.Block}
      (hparams : ∀ param ∈ params, SteadyType param.2) (hreturn : SteadyType returnType)
      (heffects : OneOfEachName effects) (hbody : SteadyBlock folding body) :
      SteadyExpr folding (.lambda params returnType effects effectRowVar body)
  | ascription {folding : Bool} {value : Syntax.Expr} {ty : Syntax.TypeExpr}
      (hvalue : SteadyExpr folding value) (hty : SteadyType ty) : SteadyExpr folding (.ascription value ty)

inductive SteadyBlock : Bool → Syntax.Block → Prop
  | mk {folding : Bool} {statements : List Syntax.Statement} {result : Syntax.Expr}
      (hstatements : ∀ stmt ∈ statements, SteadyStatement folding stmt)
      (hresult : SteadyExpr folding result) : SteadyBlock folding (.mk statements result)

inductive SteadyStatement : Bool → Syntax.Statement → Prop
  | letS {folding : Bool} (name : String) {ty : Option Syntax.TypeExpr} {value : Syntax.Expr}
      (hty : ∀ t ∈ ty, SteadyType t) (hvalue : SteadyExpr folding value) :
      SteadyStatement folding (.letS name ty value)
  | expr {folding : Bool} {e : Syntax.Expr} (he : SteadyExpr folding e) : SteadyStatement folding (.expr e)

end

/-! ## Steady and invariant -/

/-- **When the order of entries does not show in a pattern.** -/
theorem invariant_pattern_steps :
    Syntax.PatternSteps fun p => InvariantPattern display p ↔ SteadyPattern display p where
  lit l := iff_of_true (fun | _, .lit _ => rfl) (.lit l)
  var name := iff_of_true (fun | _, .var _ => rfl) (.var name)
  wild := iff_of_true (fun | _, .wild => rfl) .wild
  constructor name args hargs := by
    have hnode : InvariantPattern display (.constructor name args) ↔
        Invariant (Forall₂ Syntax.Pattern.Permuted) (List.map (canonicalizePattern display)) args :=
      invariant_node (Syntax.Pattern.constructor name)
        (.constructor name) (fun | _, .constructor _ h => ⟨_, h, rfl⟩)
        fun _ _ => by simp [canonicalizePattern, canonicalizePatterns_eq_map]
    rw [hnode, invariant_forall₂ fun p _ => p.permuted_refl]
    exact ⟨fun h => .constructor name fun p hp => (hargs p hp).mp (h p hp),
      fun | .constructor _ h => fun p hp => (hargs p hp).mpr (h p hp)⟩
  record fields rest hfields := by
    have hnode : InvariantPattern display (.record fields rest) ↔
        Invariant (Reordered (Named (Option.Rel Syntax.Pattern.Permuted)))
          (fun fields => sortBy Prod.fst (fields.map (patternField display))) fields :=
      invariant_node (fun fields => Syntax.Pattern.record fields rest)
        (.record rest) (fun | _, .record _ h => ⟨_, h, rfl⟩)
        fun _ _ => by simp [canonicalizePattern, canonicalizePatternFields_eq_map]
    rw [hnode, invariant_sorted Prod.fst (patternFields_refl fields)]
    simp only [invariant_patternField]
    exact ⟨fun h => .record rest (fun field hfield p hp => (hfields field hfield p hp).mp (h.1 field hfield p hp)) h.2,
      fun | .record _ h hsame => ⟨fun field hfield p hp => (hfields field hfield p hp).mpr (h field hfield p hp), hsame⟩⟩
  tuple items hitems := by
    have hnode : InvariantPattern display (.tuple items) ↔
        Invariant (Forall₂ Syntax.Pattern.Permuted) (List.map (canonicalizePattern display)) items :=
      invariant_node Syntax.Pattern.tuple
        .tuple (fun | _, .tuple h => ⟨_, h, rfl⟩)
        fun _ _ => by simp [canonicalizePattern, canonicalizePatterns_eq_map]
    rw [hnode, invariant_forall₂ fun p _ => p.permuted_refl]
    exact ⟨fun h => .tuple fun p hp => (hitems p hp).mp (h p hp),
      fun | .tuple h => fun p hp => (hitems p hp).mpr (h p hp)⟩

theorem invariant_pattern_iff (p : Syntax.Pattern) : InvariantPattern display p ↔ SteadyPattern display p :=
  (invariant_pattern_steps display).onPattern p

/-- **Where the order of entries does not show, the tree is steady**, and where it is steady it does
not. -/
theorem invariant_steps : Syntax.TreeSteps (fun t => InvariantType display t ↔ SteadyType display t)
    (fun e => ∀ folding, InvariantExpr display folding e ↔ SteadyExpr display folding e)
    (fun b => ∀ folding, InvariantBlock display folding b ↔ SteadyBlock display folding b)
    (fun s => ∀ folding, InvariantStatement display folding s ↔ SteadyStatement display folding s) where
  named name args hargs := by
    rw [invariant_named_iff, forall₂_congr hargs]
    exact ⟨.named name, fun | .named _ h => h⟩
  record fields hfields := by
    rw [invariant_recordType_iff, forall₂_congr hfields]
    exact ⟨fun h => .record h.1 h.2, fun | .record h hsame => ⟨h, hsame⟩⟩
  tuple items hitems := by
    rw [invariant_tupleType_iff, forall₂_congr hitems]
    exact ⟨.tuple, fun | .tuple h => h⟩
  function params effects effectRowVar ret hparams hret := by
    rw [invariant_function_iff, forall₂_congr hparams, hret]
    exact ⟨fun h => .function effectRowVar h.1 h.2.1 h.2.2,
      fun | .function _ hparams heffects hret => ⟨hparams, heffects, hret⟩⟩
  union variants hvariants := by
    rw [invariant_union_iff, forall₂_congr fun variant hvariant => forall₂_congr (hvariants variant hvariant)]
    exact ⟨fun h => .union h.1 h.2, fun | .union h hsame => ⟨h, hsame⟩⟩
  recordWithSpreads spreads fields hfields := by
    rw [invariant_recordWithSpreads_iff, forall₂_congr hfields]
    exact ⟨fun h => .recordWithSpreads spreads h.1 h.2, fun | .recordWithSpreads _ h hsame => ⟨h, hsame⟩⟩
  refined base binding predicate hbase hpredicate := by
    rw [invariant_refined_iff, hbase, hpredicate]
    exact ⟨fun h => .refined binding h.1 h.2, fun | .refined _ hbase hpredicate => ⟨hbase, hpredicate⟩⟩
  lit l folding := iff_of_true (fun | _, .lit _ => rfl) (.lit l)
  var name folding := iff_of_true (fun | _, .var _ => rfl) (.var name)
  block b hb folding := by
    rw [invariant_exprBlock_iff, hb]
    exact ⟨.block, fun | .block h => h⟩
  call callee args hcallee hargs folding := by
    rw [invariant_call_iff, hcallee, forall₂_congr fun e he => hargs e he folding]
    exact ⟨fun h => .call h.1 h.2, fun | .call hcallee hargs => ⟨hcallee, hargs⟩⟩
  pipe left right hleft hright folding := by
    rw [invariant_pipe_iff, hleft, hright]
    exact ⟨fun h => .pipe h.1 h.2, fun | .pipe hleft hright => ⟨hleft, hright⟩⟩
  tryE inner hinner folding := by
    rw [invariant_tryE_iff, hinner]
    exact ⟨.tryE, fun | .tryE h => h⟩
  field value field hvalue folding := by
    rw [invariant_fieldAccess_iff, hvalue]
    exact ⟨.field field, fun | .field _ h => h⟩
  binOp op lhs rhs hlhs hrhs folding := by
    rw [invariant_binOp_iff, hlhs, hrhs]
    exact ⟨fun h => .binOp op h.1 h.2, fun | .binOp _ hlhs hrhs => ⟨hlhs, hrhs⟩⟩
  unaryOp op expr hexpr folding := by
    rw [invariant_unaryOp_iff, hexpr]
    exact ⟨.unaryOp op, fun | .unaryOp _ h => h⟩
  ifE cond thenBlock elseBlock hcond hthen helse folding := by
    match htaken : takenBlock display folding cond thenBlock elseBlock with
    | some b =>
      have hb : InvariantBlock display folding b ↔ SteadyBlock display folding b := by
        obtain ⟨-, ⟨-, rfl⟩ | ⟨-, rfl⟩⟩ := (takenBlock_eq_some_iff display folding).mp htaken
        · exact hthen folding
        · exact helse folding
      rw [invariant_ifTaken_iff display folding htaken, hb]
      refine ⟨.ifTaken htaken, fun h => ?_⟩
      match h with
      | .ifTaken htaken' h =>
        obtain rfl := Option.some.inj (htaken.symm.trans htaken')
        exact h
      | .ifE hopen _ _ _ => exact nomatch htaken.symm.trans hopen
    | none =>
      rw [invariant_ifOpen_iff display folding htaken, hcond, hthen, helse]
      refine ⟨fun h => .ifE htaken h.1 h.2.1 h.2.2, fun h => ?_⟩
      match h with
      | .ifTaken htaken' _ => exact nomatch htaken.symm.trans htaken'
      | .ifE _ hcond hthen helse => exact ⟨hcond, hthen, helse⟩
  matchE scrutinee arms hscrutinee harms folding := by
    match htaken : takenArm display folding scrutinee arms with
    | some arm =>
      rw [invariant_matchTaken_iff display folding htaken, harms arm (mem_of_takenArm display folding htaken)]
      refine ⟨.matchTaken htaken, fun h => ?_⟩
      match h with
      | .matchTaken htaken' h =>
        obtain rfl := Option.some.inj (htaken.symm.trans htaken')
        exact h
      | .matchE hopen _ _ _ => exact nomatch htaken.symm.trans hopen
    | none =>
      have hparts : (∀ arm ∈ arms, InvariantPattern display arm.1 ∧ InvariantExpr display folding arm.2) ↔
          ∀ arm ∈ arms, SteadyPattern display arm.1 ∧ SteadyExpr display folding arm.2 :=
        forall₂_congr fun arm harm => and_congr (invariant_pattern_iff display arm.1) (harms arm harm folding)
      rw [invariant_matchOpen_iff display folding htaken, hscrutinee, hparts]
      refine ⟨fun h => .matchE htaken h.1 (fun arm harm => (h.2 arm harm).1) fun arm harm => (h.2 arm harm).2,
        fun h => ?_⟩
      match h with
      | .matchTaken htaken' _ => exact nomatch htaken.symm.trans htaken'
      | .matchE _ hscrutinee hpatterns hbodies =>
        exact ⟨hscrutinee, fun arm harm => ⟨hpatterns arm harm, hbodies arm harm⟩⟩
  recordLit fields hfields folding := by
    rw [invariant_recordLit_iff, forall₂_congr fun field hfield => hfields field hfield folding]
    exact ⟨fun h => .recordLit h.1 h.2, fun | .recordLit h hsame => ⟨h, hsame⟩⟩
  tupleLit items hitems folding := by
    rw [invariant_tupleLit_iff, forall₂_congr fun e he => hitems e he folding]
    exact ⟨.tupleLit, fun | .tupleLit h => h⟩
  listLit items hitems folding := by
    rw [invariant_listLit_iff, forall₂_congr fun e he => hitems e he folding]
    exact ⟨.listLit, fun | .listLit h => h⟩
  constructor name args hargs folding := by
    rw [invariant_constructor_iff, forall₂_congr fun e he => hargs e he folding]
    exact ⟨.constructor name, fun | .constructor _ h => h⟩
  lambda params returnType effects effectRowVar body hparams hreturn hbody folding := by
    rw [invariant_lambda_iff, forall₂_congr hparams, hreturn, hbody]
    exact ⟨fun h => .lambda effectRowVar h.1.1 h.1.2 h.2.1 h.2.2,
      fun | .lambda _ hparams hreturn heffects hbody => ⟨⟨hparams, hreturn⟩, heffects, hbody⟩⟩
  ascription value ty hvalue hty folding := by
    rw [invariant_ascription_iff, hvalue, hty]
    exact ⟨fun h => .ascription h.1 h.2, fun | .ascription hvalue hty => ⟨hvalue, hty⟩⟩
  statements statements result hstatements hresult folding := by
    rw [invariant_block_iff, hresult, forall₂_congr fun stmt hstmt => hstatements stmt hstmt folding]
    exact ⟨fun h => .mk h.1 h.2, fun | .mk hstatements hresult => ⟨hstatements, hresult⟩⟩
  letS name ty value hty hvalue folding := by
    rw [invariant_letS_iff, hvalue, forall₂_congr hty]
    exact ⟨fun h => .letS name h.1 h.2, fun | .letS _ hty hvalue => ⟨hty, hvalue⟩⟩
  expr e he folding := by
    rw [invariant_statementExpr_iff, he]
    exact ⟨.expr, fun | .expr h => h⟩

/-! ## Programs -/

/-- A steady declaration. The effects of a function declaration are not sorted. -/
def SteadyItem : Syntax.Item → Prop
  | .importDecl _ => True
  | .typeDecl decl => SteadyType display decl.definition
  | .fnDecl decl =>
    (∀ param ∈ decl.params, SteadyType display param.2) ∧
      (∀ effect ∈ decl.effects, ∀ effect' ∈ decl.effects, effect = effect') ∧
      SteadyType display decl.returnType ∧ SteadyBlock display true decl.body ∧
      ∀ ex ∈ decl.examples, (∀ e ∈ ex.args, SteadyExpr display false e) ∧ SteadyExpr display false ex.expected

/-- **A steady program.** -/
def Steady (program : Syntax.Program) : Prop := ∀ item ∈ program.items, SteadyItem display item

/-- What a declaration comes to, as it is stored. -/
def itemTo (item : Syntax.Item) : Stage := eliminateInStage (canonicalizeItem display item)

theorem itemTo_fnDecl (decl : Syntax.FnDecl) :
    itemTo display (.fnDecl decl) = .fnDecl { canonicalizeFnDecl display decl with
      body := blockTo display true decl.body } := rfl

theorem invariant_example_iff (ex : Syntax.Example) :
    Invariant Syntax.Example.Permuted (canonicalizeExample display) ex ↔
      (∀ e ∈ ex.args, SteadyExpr display false e) ∧ SteadyExpr display false ex.expected := by
  obtain ⟨args, expected⟩ := ex
  have hexpr := (invariant_steps display).onExpr
  rw [← forall₂_congr fun e _ => hexpr e false, ← hexpr expected false, ← invariant_exprs]
  refine invariant_node₂ Syntax.Example.mk (exprs_refl args) expected.permuted_refl .mk ?_ ?_
  · rintro y ⟨hargs, hexpected⟩
    exact ⟨_, _, hargs, hexpected, rfl⟩
  · intro args' expected' _ _
    show Example.mk _ _ = Example.mk _ _ ↔ _
    rw [Example.mk.injEq, canonicalizeExprs_eq_map, canonicalizeExprs_eq_map]
    rfl

theorem invariant_allEffects (effects : List Syntax.Effect) :
    Invariant (Reordered Eq) (List.map canonicalizeEffect) effects ↔
      ∀ effect ∈ effects, ∀ effect' ∈ effects, effect = effect' := by
  have hself : ∀ effect, Invariant Eq canonicalizeEffect effect := by
    rintro effect _ rfl
    rfl
  rw [invariant_unsorted fun _ _ => rfl]
  simp only [hself, implies_true, true_and, canonicalizeEffect_injective.eq_iff]

/-- What function declarations come to tells what their parts come to. -/
theorem itemTo_fnDecl_inj (name : String) (typeParams : List String) (effectRowVar : Option String)
    (comments : List String) (params params' : List (String × Syntax.TypeExpr))
    (effects effects' : List Syntax.Effect) (returnType returnType' : Syntax.TypeExpr)
    (body body' : Syntax.Block) (examples examples' : List Syntax.Example) :
    itemTo display (.fnDecl ⟨name, typeParams, params', effects', effectRowVar, returnType', body', examples', comments⟩) =
        itemTo display (.fnDecl ⟨name, typeParams, params, effects, effectRowVar, returnType, body, examples, comments⟩) ↔
      (params'.map (typeField display) = params.map (typeField display) ∧
        effects'.map canonicalizeEffect = effects.map canonicalizeEffect) ∧
      canonicalizeType display returnType' = canonicalizeType display returnType ∧
      blockTo display true body' = blockTo display true body ∧
      examples'.map (canonicalizeExample display) = examples.map (canonicalizeExample display) := by
  rw [itemTo_fnDecl, itemTo_fnDecl, Stage.fnDecl.injEq, FnDecl.mk.injEq]
  simp only [canonicalizeFnDecl, true_and, and_true, canonicalizeTypeFields_eq_map]
  tauto

theorem invariant_fnDecl_iff (decl : Syntax.FnDecl) : Invariant Syntax.Item.Permuted (itemTo display) (.fnDecl decl) ↔
      ((∀ param ∈ decl.params, InvariantType display param.2) ∧
        ∀ effect ∈ decl.effects, ∀ effect' ∈ decl.effects, effect = effect') ∧
      InvariantType display decl.returnType ∧ InvariantBlock display true decl.body ∧
      ∀ ex ∈ decl.examples, Invariant Syntax.Example.Permuted (canonicalizeExample display) ex := by
  obtain ⟨name, typeParams, params, effects, effectRowVar, returnType, body, examples, comments⟩ := decl
  have hparams := forall₂_refl (typeFields_refl params)
  have heffects : Reordered Eq effects effects := Reordered.refl fun _ _ => rfl
  have hexamples : Forall₂ Syntax.Example.Permuted examples examples :=
    forall₂_refl fun ex _ => ex.permuted_refl
  simp only [← invariant_typeField, ← invariant_allEffects]
  rw [← invariant_forall₂ (typeFields_refl params), ← invariant_forall₂ fun ex _ => ex.permuted_refl]
  refine .trans ?_ (and_congr (invariant_both hparams heffects)
    ((invariant_both returnType.permuted_refl (.intro body.permuted_refl hexamples)).trans
      (and_congr_right fun _ => invariant_both body.permuted_refl hexamples)))
  refine invariant_node₂ (fun (signature : List (String × Syntax.TypeExpr) × List Syntax.Effect)
      (rest : Syntax.TypeExpr × Syntax.Block × List Syntax.Example) =>
    Syntax.Item.fnDecl ⟨name, typeParams, signature.1, signature.2, effectRowVar, rest.1, rest.2.1, rest.2.2, comments⟩)
    (a := (params, effects)) (b := (returnType, body, examples)) (.intro hparams heffects)
    (.intro returnType.permuted_refl (.intro body.permuted_refl hexamples))
    (fun ⟨hparams, heffects⟩ ⟨hreturn, ⟨hbody, hexamples⟩⟩ =>
      .fnDecl (.mk name typeParams effectRowVar comments hparams heffects hreturn hbody hexamples)) ?_ ?_
  · rintro y ⟨⟩
    rename_i hdecl
    obtain ⟨_, _, _, _, hparams, heffects, hreturn, hbody, hexamples⟩ := hdecl
    exact ⟨(_, _), (_, _, _), .intro hparams heffects, .intro hreturn (.intro hbody hexamples), rfl⟩
  · rintro ⟨params', effects'⟩ ⟨returnType', body', examples'⟩ - -
    rw [itemTo_fnDecl_inj]
    simp only [Prod.map_apply, Prod.mk.injEq]

theorem invariant_item_iff : ∀ item : Syntax.Item,
    Invariant Syntax.Item.Permuted (itemTo display) item ↔ SteadyItem display item
  | .importDecl decl => iff_of_true (fun | _, .importDecl _ => rfl) trivial
  | .typeDecl decl => by
    refine .trans ?_ ((invariant_steps display).onType decl.definition)
    refine invariant_node (fun definition => Syntax.Item.typeDecl { decl with definition := definition })
      (fun hdefinition => .typeDecl (.mk decl.name decl.params decl.leadingComments hdefinition)) ?_ ?_
    · rintro y ⟨⟩
      rename_i hdecl
      obtain ⟨_, _, _, hdefinition⟩ := hdecl
      exact ⟨_, hdefinition, rfl⟩
    · intro definition' _
      show Stage.typeDecl _ = Stage.typeDecl _ ↔ _
      simp [canonicalizeTypeDecl]
  | .fnDecl decl => by
    have hsteps := invariant_steps display
    have hparams : (∀ param ∈ decl.params, InvariantType display param.2) ↔
        ∀ param ∈ decl.params, SteadyType display param.2 := forall₂_congr fun param _ => hsteps.onType param.2
    have hexamples : (∀ ex ∈ decl.examples, Invariant Syntax.Example.Permuted (canonicalizeExample display) ex) ↔
        ∀ ex ∈ decl.examples, (∀ e ∈ ex.args, SteadyExpr display false e) ∧ SteadyExpr display false ex.expected :=
      forall₂_congr fun ex _ => invariant_example_iff display ex
    rw [invariant_fnDecl_iff, hparams, hsteps.onType decl.returnType, hsteps.onBlock decl.body true, hexamples,
      and_assoc]
    rfl

/-! ### The header -/

/-- The header goes before folding or after it. -/
theorem eliminate_addHeader (header : List String) (stages : List Stage) :
    eliminateDeadBranchesInStages (addHeader header stages) =
      addHeader header (eliminateDeadBranchesInStages stages) := by
  induction stages with
  | nil => rfl
  | cons stage stages ih =>
    match stage with
    | .fnDecl _ => rfl
    | .typeDecl _ => rfl
    | .importDecl _ => exact congrArg _ ih

theorem addHeader_injective (header : List String) : Function.Injective (addHeader header) := by
  intro stages
  induction stages with
  | nil =>
    intro stages' h
    match stages', h with
    | [], _ => rfl
    | .fnDecl _ :: _, h | .typeDecl _ :: _, h | .importDecl _ :: _, h => exact nomatch h
  | cons stage stages ih =>
    intro stages' h
    match stage, stages', h with
    | .fnDecl ⟨_, _, _, _, _, _, _, _, _⟩, .fnDecl ⟨_, _, _, _, _, _, _, _, _⟩ :: stages', h =>
      simp only [addHeader, List.cons.injEq, Stage.fnDecl.injEq, FnDecl.mk.injEq, append_cancel_left_eq] at h ⊢
      exact h
    | .typeDecl ⟨_, _, _, _⟩, .typeDecl ⟨_, _, _, _⟩ :: stages', h =>
      simp only [addHeader, List.cons.injEq, Stage.typeDecl.injEq, TypeDecl.mk.injEq,
        append_cancel_left_eq] at h ⊢
      exact h
    | .importDecl i, .importDecl i' :: stages', h =>
      obtain ⟨rfl, hrest⟩ : i = i' ∧ _ := by simpa only [addHeader, List.cons.injEq, Stage.importDecl.injEq] using h
      rw [ih hrest]
    | .fnDecl _, [], h | .typeDecl _, [], h | .importDecl _, [], h => exact nomatch h
    | .fnDecl _, .typeDecl _ :: _, h | .fnDecl _, .importDecl _ :: _, h | .typeDecl _, .fnDecl _ :: _, h
    | .typeDecl _, .importDecl _ :: _, h | .importDecl _, .fnDecl _ :: _, h | .importDecl _, .typeDecl _ :: _, h =>
      exact nomatch (List.cons.inj h).1

/-- What a program comes to: what its declarations come to, and the header. -/
theorem canonicalizeProgram_eq (program : Syntax.Program) : canonicalizeProgram display program =
      if program.leadingComments.isEmpty then program.items.map (itemTo display)
      else addHeader program.leadingComments (program.items.map (itemTo display)) := by
  have hmap : eliminateDeadBranchesInStages (program.items.map (canonicalizeItem display)) =
      program.items.map (itemTo display) := by
    show List.map _ (List.map _ _) = _
    rw [map_map]
    rfl
  show eliminateDeadBranchesInStages (if _ then _ else _) = _
  split
  · exact hmap
  · rw [eliminate_addHeader, hmap]

theorem invariant_program_iff (program : Syntax.Program) :
    Invariant Syntax.Program.Permuted (canonicalizeProgram display) program ↔ Steady display program := by
  obtain ⟨items, comments⟩ := program
  refine .trans ?_ ((invariant_forall₂ fun item _ => item.permuted_refl).trans
    (forall₂_congr fun item _ => invariant_item_iff display item))
  refine invariant_node (fun items => Syntax.Program.mk items comments) (.mk comments) ?_ ?_
  · rintro y ⟨_, hitems⟩
    exact ⟨_, hitems, rfl⟩
  · intro items' _
    rw [canonicalizeProgram_eq, canonicalizeProgram_eq]
    simp only
    split
    · exact Iff.rfl
    · exact (addHeader_injective comments).eq_iff

end LexLang.Ast
