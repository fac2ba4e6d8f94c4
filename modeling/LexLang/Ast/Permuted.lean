/-
# LexLang.Ast.Permuted — one program, its entries in another order

Entries that may stand in any order: the fields of record types (also beside spreads), record literals
and record patterns, the variants of a union, the effects of function declarations, function types and
lambdas. `Permuted` relates two trees that differ in their order only, everywhere at once; the rest of
the trees is the same, place by place.
-/
import LexLang.Ast.Syntax
import LexLang.Order.Presentation

namespace LexLang.Syntax

open LexLang.Order
open List

/-- A pattern with the fields of its record patterns in another order. -/
inductive Pattern.Permuted : Pattern → Pattern → Prop
  | lit (l : Literal) : Permuted (.lit l) (.lit l)
  | var (name : String) : Permuted (.var name) (.var name)
  | wild : Permuted .wild .wild
  | constructor (name : String) {args args' : List Pattern} (hargs : Forall₂ Permuted args args') :
      Permuted (.constructor name args) (.constructor name args')
  | record (rest : Bool) {fields fields' : List (String × Option Pattern)}
      (hfields : Reordered (Named (Option.Rel Permuted)) fields fields') :
      Permuted (.record fields rest) (.record fields' rest)
  | tuple {items items' : List Pattern} (hitems : Forall₂ Permuted items items') :
      Permuted (.tuple items) (.tuple items')

mutual

/-- A type with the fields of its records, its variants and its effects in another order. -/
inductive TypeExpr.Permuted : TypeExpr → TypeExpr → Prop
  | named (name : String) {args args' : List TypeExpr} (hargs : Forall₂ TypeExpr.Permuted args args') :
      TypeExpr.Permuted (.named name args) (.named name args')
  | record {fields fields' : List (String × TypeExpr)}
      (hfields : Reordered (Named TypeExpr.Permuted) fields fields') :
      TypeExpr.Permuted (.record fields) (.record fields')
  | tuple {items items' : List TypeExpr} (hitems : Forall₂ TypeExpr.Permuted items items') :
      TypeExpr.Permuted (.tuple items) (.tuple items')
  | function (effectRowVar : Option String) {params params' : List TypeExpr} {effects effects' : List Effect}
      {ret ret' : TypeExpr} (hparams : Forall₂ TypeExpr.Permuted params params')
      (heffects : Reordered Eq effects effects') (hret : TypeExpr.Permuted ret ret') :
      TypeExpr.Permuted (.function params effects effectRowVar ret)
        (.function params' effects' effectRowVar ret')
  | union {variants variants' : List (String × Option TypeExpr)}
      (hvariants : Reordered (Named (Option.Rel TypeExpr.Permuted)) variants variants') :
      TypeExpr.Permuted (.union variants) (.union variants')
  | recordWithSpreads (spreads : List String) {fields fields' : List (String × TypeExpr)}
      (hfields : Reordered (Named TypeExpr.Permuted) fields fields') :
      TypeExpr.Permuted (.recordWithSpreads spreads fields) (.recordWithSpreads spreads fields')
  | refined (binding : String) {base base' : TypeExpr} {predicate predicate' : Expr}
      (hbase : TypeExpr.Permuted base base') (hpredicate : Expr.Permuted predicate predicate') :
      TypeExpr.Permuted (.refined base binding predicate) (.refined base' binding predicate')

/-- An expression with the entries of its record literals and of the rest in another order. -/
inductive Expr.Permuted : Expr → Expr → Prop
  | lit (l : Literal) : Expr.Permuted (.lit l) (.lit l)
  | var (name : String) : Expr.Permuted (.var name) (.var name)
  | block {b b' : Block} (hblock : Block.Permuted b b') : Expr.Permuted (.block b) (.block b')
  | call {callee callee' : Expr} {args args' : List Expr} (hcallee : Expr.Permuted callee callee')
      (hargs : Forall₂ Expr.Permuted args args') :
      Expr.Permuted (.call callee args) (.call callee' args')
  | pipe {left left' right right' : Expr} (hleft : Expr.Permuted left left')
      (hright : Expr.Permuted right right') : Expr.Permuted (.pipe left right) (.pipe left' right')
  | tryE {inner inner' : Expr} (hinner : Expr.Permuted inner inner') :
      Expr.Permuted (.tryE inner) (.tryE inner')
  | field (field : String) {value value' : Expr} (hvalue : Expr.Permuted value value') :
      Expr.Permuted (.field value field) (.field value' field)
  | binOp (op : BinOp) {lhs lhs' rhs rhs' : Expr} (hlhs : Expr.Permuted lhs lhs')
      (hrhs : Expr.Permuted rhs rhs') : Expr.Permuted (.binOp op lhs rhs) (.binOp op lhs' rhs')
  | unaryOp (op : UnaryOp) {expr expr' : Expr} (hexpr : Expr.Permuted expr expr') :
      Expr.Permuted (.unaryOp op expr) (.unaryOp op expr')
  | ifE {cond cond' : Expr} {thenBlock thenBlock' elseBlock elseBlock' : Block}
      (hcond : Expr.Permuted cond cond') (hthen : Block.Permuted thenBlock thenBlock')
      (helse : Block.Permuted elseBlock elseBlock') :
      Expr.Permuted (.ifE cond thenBlock elseBlock) (.ifE cond' thenBlock' elseBlock')
  | matchE {scrutinee scrutinee' : Expr} {arms arms' : List (Pattern × Expr)}
      (hscrutinee : Expr.Permuted scrutinee scrutinee')
      (harms : Forall₂ (Both Pattern.Permuted Expr.Permuted) arms arms') :
      Expr.Permuted (.matchE scrutinee arms) (.matchE scrutinee' arms')
  | recordLit {fields fields' : List (String × Expr)}
      (hfields : Reordered (Named Expr.Permuted) fields fields') :
      Expr.Permuted (.recordLit fields) (.recordLit fields')
  | tupleLit {items items' : List Expr} (hitems : Forall₂ Expr.Permuted items items') :
      Expr.Permuted (.tupleLit items) (.tupleLit items')
  | listLit {items items' : List Expr} (hitems : Forall₂ Expr.Permuted items items') :
      Expr.Permuted (.listLit items) (.listLit items')
  | constructor (name : String) {args args' : List Expr} (hargs : Forall₂ Expr.Permuted args args') :
      Expr.Permuted (.constructor name args) (.constructor name args')
  | lambda (effectRowVar : Option String) {params params' : List (String × TypeExpr)}
      {returnType returnType' : TypeExpr} {effects effects' : List Effect} {body body' : Block}
      (hparams : Forall₂ (Named TypeExpr.Permuted) params params')
      (hreturn : TypeExpr.Permuted returnType returnType') (heffects : Reordered Eq effects effects')
      (hbody : Block.Permuted body body') :
      Expr.Permuted (.lambda params returnType effects effectRowVar body)
        (.lambda params' returnType' effects' effectRowVar body')
  | ascription {value value' : Expr} {ty ty' : TypeExpr} (hvalue : Expr.Permuted value value')
      (hty : TypeExpr.Permuted ty ty') : Expr.Permuted (.ascription value ty) (.ascription value' ty')

inductive Block.Permuted : Block → Block → Prop
  | mk {statements statements' : List Statement} {result result' : Expr}
      (hstatements : Forall₂ Statement.Permuted statements statements')
      (hresult : Expr.Permuted result result') :
      Block.Permuted (.mk statements result) (.mk statements' result')

inductive Statement.Permuted : Statement → Statement → Prop
  | letS (name : String) {ty ty' : Option TypeExpr} {value value' : Expr}
      (hty : Option.Rel TypeExpr.Permuted ty ty') (hvalue : Expr.Permuted value value') :
      Statement.Permuted (.letS name ty value) (.letS name ty' value')
  | expr {e e' : Expr} (he : Expr.Permuted e e') : Statement.Permuted (.expr e) (.expr e')

end

inductive Example.Permuted : Example → Example → Prop
  | mk {args args' : List Expr} {expected expected' : Expr} (hargs : Forall₂ Expr.Permuted args args')
      (hexpected : Expr.Permuted expected expected') :
      Example.Permuted ⟨args, expected⟩ ⟨args', expected'⟩

inductive TypeDecl.Permuted : TypeDecl → TypeDecl → Prop
  | mk (name : String) (params leadingComments : List String) {definition definition' : TypeExpr}
      (hdefinition : definition.Permuted definition') :
      TypeDecl.Permuted ⟨name, params, definition, leadingComments⟩
        ⟨name, params, definition', leadingComments⟩

inductive FnDecl.Permuted : FnDecl → FnDecl → Prop
  | mk (name : String) (typeParams : List String) (effectRowVar : Option String)
      (leadingComments : List String) {params params' : List (String × TypeExpr)}
      {effects effects' : List Effect} {returnType returnType' : TypeExpr} {body body' : Block}
      {examples examples' : List Example}
      (hparams : Forall₂ (Named TypeExpr.Permuted) params params')
      (heffects : Reordered Eq effects effects') (hreturn : returnType.Permuted returnType')
      (hbody : body.Permuted body') (hexamples : Forall₂ Example.Permuted examples examples') :
      FnDecl.Permuted
        ⟨name, typeParams, params, effects, effectRowVar, returnType, body, examples, leadingComments⟩
        ⟨name, typeParams, params', effects', effectRowVar, returnType', body', examples', leadingComments⟩

inductive Item.Permuted : Item → Item → Prop
  | importDecl (decl : Import) : Item.Permuted (.importDecl decl) (.importDecl decl)
  | typeDecl {decl decl' : TypeDecl} (hdecl : decl.Permuted decl') :
      Item.Permuted (.typeDecl decl) (.typeDecl decl')
  | fnDecl {decl decl' : FnDecl} (hdecl : decl.Permuted decl') : Item.Permuted (.fnDecl decl) (.fnDecl decl')

/-- **A program with its entries in another order.** The declarations themselves stay in theirs. -/
inductive Program.Permuted : Program → Program → Prop
  | mk (leadingComments : List String) {items items' : List Item}
      (hitems : Forall₂ Item.Permuted items items') :
      Program.Permuted ⟨items, leadingComments⟩ ⟨items', leadingComments⟩

/-! ## Every tree is its own permutation -/

theorem Option.rel_refl {α : Type*} {R : α → α → Prop} : ∀ {a : Option α}, (∀ b ∈ a, R b b) → Option.Rel R a a
  | none, _ => .none
  | some b, h => .some (h b rfl)

theorem Pattern.permuted_refl : ∀ p : Pattern, p.Permuted p := PatternSteps.onPattern {
  lit := .lit
  var := .var
  wild := .wild
  constructor := fun name _ hargs => .constructor name (forall₂_refl hargs)
  record := fun _ rest hfields =>
    .record rest (Reordered.refl fun field hfield => .intro field.1 (Option.rel_refl (hfields field hfield)))
  tuple := fun _ hitems => .tuple (forall₂_refl hitems) }

/-- Of types, expressions, blocks and statements. -/
theorem permuted_refl_steps : TreeSteps (fun t => t.Permuted t) (fun e => e.Permuted e)
    (fun b => b.Permuted b) (fun s => s.Permuted s) where
  named name _ hargs := .named name (forall₂_refl hargs)
  record _ hfields := .record (Reordered.refl fun field hfield => .intro field.1 (hfields field hfield))
  tuple _ hitems := .tuple (forall₂_refl hitems)
  function _ _ effectRowVar _ hparams hret :=
    .function effectRowVar (forall₂_refl hparams) (Reordered.refl fun _ _ => rfl) hret
  union _ hvariants :=
    .union (Reordered.refl fun variant hvariant =>
      .intro variant.1 (Option.rel_refl (hvariants variant hvariant)))
  recordWithSpreads spreads _ hfields :=
    .recordWithSpreads spreads (Reordered.refl fun field hfield => .intro field.1 (hfields field hfield))
  refined _ binding _ hbase hpredicate := .refined binding hbase hpredicate
  lit := .lit
  var := .var
  block _ hb := .block hb
  call _ _ hcallee hargs := .call hcallee (forall₂_refl hargs)
  pipe _ _ hleft hright := .pipe hleft hright
  tryE _ hinner := .tryE hinner
  field _ field hvalue := .field field hvalue
  binOp op _ _ hlhs hrhs := .binOp op hlhs hrhs
  unaryOp op _ hexpr := .unaryOp op hexpr
  ifE _ _ _ hcond hthen helse := .ifE hcond hthen helse
  matchE _ _ hscrutinee harms :=
    .matchE hscrutinee (forall₂_refl fun arm harm => .intro arm.1.permuted_refl (harms arm harm))
  recordLit _ hfields :=
    .recordLit (Reordered.refl fun field hfield => .intro field.1 (hfields field hfield))
  tupleLit _ hitems := .tupleLit (forall₂_refl hitems)
  listLit _ hitems := .listLit (forall₂_refl hitems)
  constructor name _ hargs := .constructor name (forall₂_refl hargs)
  lambda _ _ _ effectRowVar _ hparams hreturn hbody :=
    .lambda effectRowVar (forall₂_refl fun param hparam => .intro param.1 (hparams param hparam)) hreturn
      (Reordered.refl fun _ _ => rfl) hbody
  ascription _ _ hvalue hty := .ascription hvalue hty
  statements _ _ hstatements hresult := .mk (forall₂_refl hstatements) hresult
  letS name _ _ hty hvalue := .letS name (Option.rel_refl hty) hvalue
  expr _ he := .expr he

theorem TypeExpr.permuted_refl (t : TypeExpr) : t.Permuted t := permuted_refl_steps.onType t

theorem Expr.permuted_refl (e : Expr) : e.Permuted e := permuted_refl_steps.onExpr e

theorem Block.permuted_refl (b : Block) : b.Permuted b := permuted_refl_steps.onBlock b

theorem Statement.permuted_refl (s : Statement) : s.Permuted s := permuted_refl_steps.onStatement s

theorem Named.permuted_refl {α : Type*} {R : α → α → Prop} (hrefl : ∀ a, R a a) (entry : String × α) :
    Named R entry entry := .intro entry.1 (hrefl entry.2)

theorem Example.permuted_refl (ex : Example) : ex.Permuted ex :=
  .mk (forall₂_refl fun e _ => e.permuted_refl) ex.expected.permuted_refl

theorem Item.permuted_refl : ∀ item : Item, item.Permuted item
  | .importDecl decl => .importDecl decl
  | .typeDecl decl => .typeDecl (.mk _ _ _ decl.definition.permuted_refl)
  | .fnDecl decl =>
    .fnDecl (.mk _ _ _ _ (forall₂_refl fun param _ => .intro param.1 param.2.permuted_refl)
      (Reordered.refl fun _ _ => rfl) decl.returnType.permuted_refl decl.body.permuted_refl
      (forall₂_refl fun ex _ => ex.permuted_refl))

end LexLang.Syntax
