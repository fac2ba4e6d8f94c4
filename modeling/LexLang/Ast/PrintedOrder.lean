/-
# LexLang.Ast.PrintedOrder — canonicalizing what was printed

The canonical tree is printed as source (`lex-ast/src/canon_print.rs`), list by list in its order,
and read again. `reread` is the tree that comes back: a let opens a block, a constructor is a name
or a call of one, and an early return, which the source has no word for, is its value.
-/
import LexLang.Ast.EntryOrder
import LexLang.Ast.Identity

namespace LexLang.Ast

open LexLang.Order
open List Option

/-! ## The tree of a printed program -/

/-- A digit in hex. -/
def nibble (c : Char) : Nat := "0123456789abcdef".toList.idxOf c

def decodeHex : List Char → List UInt8
  | high :: low :: rest => UInt8.ofNat (nibble high * 16 + nibble low) :: decodeHex rest
  | _ => []

section Reread

variable (readFloat : String → BitVec 64)

def rereadLit : CLit → Syntax.Literal
  | .int value => .int value
  | .float value => .float (readFloat value)
  | .str value => .str value
  | .bytes value => .bytes (decodeHex value.toList)
  | .bool value => .bool value
  | .unit => .unit

def rereadEffect (effect : Effect) : Syntax.Effect where
  name := effect.name
  arg := effect.arg.map fun
    | .str value => .str value
    | .int value => .int value
    | .ident value => .ident value

mutual

def rereadPattern : Pattern → Syntax.Pattern
  | .pLiteral value => .lit (rereadLit readFloat value)
  | .pVar name => .var name
  | .pWild => .wild
  | .pConstructor name args => if args.isEmpty then .var name else .constructor name (rereadPatterns args)
  | .pRecord fields => .record (rereadPatternFields fields) false
  | .pTuple items => .tuple (rereadPatterns items)

def rereadPatterns : List Pattern → List Syntax.Pattern
  | [] => []
  | p :: ps => rereadPattern p :: rereadPatterns ps

def rereadPatternFields : List (String × Pattern) → List (String × Option Syntax.Pattern)
  | [] => []
  | (name, p) :: fields => (name, some (rereadPattern p)) :: rereadPatternFields fields

end

attribute [local simp] rereadPattern rereadPatterns rereadPatternFields

/-- The operator of a text. -/
def rereadBinOp (op : String) : Syntax.BinOp :=
  if op = "+" then .add else if op = "-" then .sub else if op = "*" then .mul else if op = "/" then .div
  else if op = "%" then .mod else if op = "==" then .eq else if op = "!=" then .neq else if op = "<" then .lt
  else if op = "<=" then .lte else if op = ">" then .gt else if op = ">=" then .gte
  else if op = "and" then .and else .or

/-- An expression as the contents of a block: a let or a block continues it. -/
def asBlock (e : CExpr) (read : Syntax.Expr) : Syntax.Block :=
  match e, read with
  | .letE .., .block b => b
  | .block .., .block b => b
  | _, read => .mk [] read

/-- Put statements before a block. -/
def prepend (stmts : List Syntax.Statement) : Syntax.Block → Syntax.Block
  | .mk statements result => .mk (stmts ++ statements) result

mutual

def rereadType : TypeExpr → Syntax.TypeExpr
  | .named name args => .named name (rereadTypes args)
  | .record fields => .record (rereadTypeFields fields)
  | .tuple items => .tuple (rereadTypes items)
  | .function params effects effectRowVar ret =>
    .function (rereadTypes params) (effects.map rereadEffect) effectRowVar (rereadType ret)
  | .union variants => .union (rereadVariants variants)
  | .recordWithSpreads spreads fields => .recordWithSpreads spreads (rereadTypeFields fields)
  | .refined base binding predicate => .refined (rereadType base) binding (rereadExpr predicate)

def rereadTypes : List TypeExpr → List Syntax.TypeExpr
  | [] => []
  | t :: ts => rereadType t :: rereadTypes ts

def rereadTypeFields : List (String × TypeExpr) → List (String × Syntax.TypeExpr)
  | [] => []
  | (name, t) :: fields => (name, rereadType t) :: rereadTypeFields fields

def rereadVariants : List (String × Option TypeExpr) → List (String × Option Syntax.TypeExpr)
  | [] => []
  | (name, some t) :: variants => (name, some (rereadType t)) :: rereadVariants variants
  | (name, none) :: variants => (name, none) :: rereadVariants variants

/-- **The tree of a printed expression.** -/
def rereadExpr : CExpr → Syntax.Expr
  | .literal value => .lit (rereadLit readFloat value)
  | .var name => .var name
  | .call callee args => .call (rereadExpr callee) (rereadExprs args)
  | .letE name (some t) value body =>
    .block (prepend [.letS name (some (rereadType t)) (rereadExpr value)] (asBlock body (rereadExpr body)))
  | .letE name none value body =>
    .block (prepend [.letS name none (rereadExpr value)] (asBlock body (rereadExpr body)))
  | .matchE scrutinee arms => .matchE (rereadExpr scrutinee) (rereadArms arms)
  | .block statements result =>
    .block (prepend ((rereadExprs statements).map .expr) (asBlock result (rereadExpr result)))
  | .constructor name args => if args.isEmpty then .var name else .call (.var name) (rereadExprs args)
  | .recordLit fields => .recordLit (rereadFields fields)
  | .tupleLit items => .tupleLit (rereadExprs items)
  | .listLit items => .listLit (rereadExprs items)
  | .fieldAccess value field => .field (rereadExpr value) field
  | .lambda params returnType effects effectRowVar body =>
    .lambda (rereadTypeFields params) (rereadType returnType) (effects.map rereadEffect) effectRowVar
      (asBlock body (rereadExpr body))
  | .binOp op lhs rhs => .binOp (rereadBinOp op) (rereadExpr lhs) (rereadExpr rhs)
  | .unaryOp op expr => .unaryOp (if op = "not" then .not else .neg) (rereadExpr expr)
  | .returnE value => rereadExpr value

def rereadExprs : List CExpr → List Syntax.Expr
  | [] => []
  | e :: es => rereadExpr e :: rereadExprs es

def rereadFields : List (String × CExpr) → List (String × Syntax.Expr)
  | [] => []
  | (name, e) :: fields => (name, rereadExpr e) :: rereadFields fields

def rereadArms : List (Pattern × CExpr) → List (Syntax.Pattern × Syntax.Expr)
  | [] => []
  | (pattern, body) :: arms => (rereadPattern readFloat pattern, rereadExpr body) :: rereadArms arms

end

attribute [local simp] rereadType rereadTypes rereadTypeFields rereadVariants rereadExpr rereadExprs rereadFields
  rereadArms

def rereadStage : Stage → Syntax.Item
  | .importDecl i => .importDecl ⟨i.reference, i.importAlias⟩
  | .typeDecl td => .typeDecl ⟨td.name, td.params, rereadType readFloat td.definition, td.doc⟩
  | .fnDecl fd =>
    .fnDecl ⟨fd.name, fd.typeParams, rereadTypeFields readFloat fd.params, fd.effects.map rereadEffect,
      fd.effectRowVar, rereadType readFloat fd.returnType, asBlock fd.body (rereadExpr readFloat fd.body),
      fd.examples.map fun ex => ⟨rereadExprs readFloat ex.args, rereadExpr readFloat ex.expected⟩, fd.doc⟩

/-- The comments before the first declaration are those of the file. -/
def liftComments : List Syntax.Item → Syntax.Program
  | .typeDecl td :: items => ⟨.typeDecl { td with leadingComments := [] } :: items, td.leadingComments⟩
  | .fnDecl fd :: items => ⟨.fnDecl { fd with leadingComments := [] } :: items, fd.leadingComments⟩
  | items => ⟨items, []⟩

/-- **The tree of a printed program.** -/
def reread (stages : List Stage) : Syntax.Program := liftComments (stages.map (rereadStage readFloat))

end Reread

/-! ## What is left in its order -/

section InOrder

variable (display : BitVec 64 → String)

/-- **A pattern that canonicalization does not reorder**: each of its sorts leaves the list as it is. -/
inductive InOrderPattern : Syntax.Pattern → Prop
  | lit (l : Syntax.Literal) : InOrderPattern (.lit l)
  | var (name : String) : InOrderPattern (.var name)
  | wild : InOrderPattern .wild
  | constructor (name : String) {args : List Syntax.Pattern} (hargs : ∀ p ∈ args, InOrderPattern p) :
      InOrderPattern (.constructor name args)
  | record (rest : Bool) {fields : List (String × Option Syntax.Pattern)}
      (hfields : ∀ field ∈ fields, ∀ p ∈ field.2, InOrderPattern p)
      (hsort : sortBy Prod.fst (canonicalizePatternFields display fields) = canonicalizePatternFields display fields) :
      InOrderPattern (.record fields rest)
  | tuple {items : List Syntax.Pattern} (hitems : ∀ p ∈ items, InOrderPattern p) : InOrderPattern (.tuple items)

/-- The effects of a function type or a lambda. -/
def InOrderEffects (effects : List Syntax.Effect) : Prop :=
  sortBy Effect.name (effects.map canonicalizeEffect) = effects.map canonicalizeEffect

mutual

inductive InOrderType : Syntax.TypeExpr → Prop
  | named (name : String) {args : List Syntax.TypeExpr} (hargs : ∀ t ∈ args, InOrderType t) :
      InOrderType (.named name args)
  | record {fields : List (String × Syntax.TypeExpr)} (hfields : ∀ field ∈ fields, InOrderType field.2)
      (hsort : sortBy Prod.fst (canonicalizeTypeFields display fields) = canonicalizeTypeFields display fields) :
      InOrderType (.record fields)
  | tuple {items : List Syntax.TypeExpr} (hitems : ∀ t ∈ items, InOrderType t) : InOrderType (.tuple items)
  | function (effectRowVar : Option String) {params : List Syntax.TypeExpr} {effects : List Syntax.Effect}
      {ret : Syntax.TypeExpr} (hparams : ∀ t ∈ params, InOrderType t) (hsort : InOrderEffects effects)
      (hret : InOrderType ret) : InOrderType (.function params effects effectRowVar ret)
  | union {variants : List (String × Option Syntax.TypeExpr)}
      (hvariants : ∀ variant ∈ variants, ∀ t ∈ variant.2, InOrderType t)
      (hsort : sortBy Prod.fst (canonicalizeVariants display variants) = canonicalizeVariants display variants) :
      InOrderType (.union variants)
  | recordWithSpreads (spreads : List String) {fields : List (String × Syntax.TypeExpr)}
      (hfields : ∀ field ∈ fields, InOrderType field.2) : InOrderType (.recordWithSpreads spreads fields)
  | refined (binding : String) {base : Syntax.TypeExpr} {predicate : Syntax.Expr} (hbase : InOrderType base)
      (hpredicate : InOrderExpr predicate) : InOrderType (.refined base binding predicate)

/-- **An expression that canonicalization does not reorder.** -/
inductive InOrderExpr : Syntax.Expr → Prop
  | lit (l : Syntax.Literal) : InOrderExpr (.lit l)
  | var (name : String) : InOrderExpr (.var name)
  | block {b : Syntax.Block} (hblock : InOrderBlock b) : InOrderExpr (.block b)
  | call {callee : Syntax.Expr} {args : List Syntax.Expr} (hcallee : InOrderExpr callee)
      (hargs : ∀ e ∈ args, InOrderExpr e) : InOrderExpr (.call callee args)
  | pipe {left right : Syntax.Expr} (hleft : InOrderExpr left) (hright : InOrderExpr right) :
      InOrderExpr (.pipe left right)
  | tryE {inner : Syntax.Expr} (hinner : InOrderExpr inner) : InOrderExpr (.tryE inner)
  | field (field : String) {value : Syntax.Expr} (hvalue : InOrderExpr value) : InOrderExpr (.field value field)
  | binOp (op : Syntax.BinOp) {lhs rhs : Syntax.Expr} (hlhs : InOrderExpr lhs) (hrhs : InOrderExpr rhs) :
      InOrderExpr (.binOp op lhs rhs)
  | unaryOp (op : Syntax.UnaryOp) {expr : Syntax.Expr} (hexpr : InOrderExpr expr) : InOrderExpr (.unaryOp op expr)
  | ifE {cond : Syntax.Expr} {thenBlock elseBlock : Syntax.Block} (hcond : InOrderExpr cond)
      (hthen : InOrderBlock thenBlock) (helse : InOrderBlock elseBlock) :
      InOrderExpr (.ifE cond thenBlock elseBlock)
  | matchE {scrutinee : Syntax.Expr} {arms : List (Syntax.Pattern × Syntax.Expr)}
      (hscrutinee : InOrderExpr scrutinee) (hpatterns : ∀ arm ∈ arms, InOrderPattern display arm.1)
      (hbodies : ∀ arm ∈ arms, InOrderExpr arm.2) : InOrderExpr (.matchE scrutinee arms)
  | recordLit {fields : List (String × Syntax.Expr)} (hfields : ∀ field ∈ fields, InOrderExpr field.2)
      (hsort : sortBy Prod.fst (canonicalizeFields display fields) = canonicalizeFields display fields) :
      InOrderExpr (.recordLit fields)
  | tupleLit {items : List Syntax.Expr} (hitems : ∀ e ∈ items, InOrderExpr e) : InOrderExpr (.tupleLit items)
  | listLit {items : List Syntax.Expr} (hitems : ∀ e ∈ items, InOrderExpr e) : InOrderExpr (.listLit items)
  | constructor (name : String) {args : List Syntax.Expr} (hargs : ∀ e ∈ args, InOrderExpr e) :
      InOrderExpr (.constructor name args)
  | lambda (effectRowVar : Option String) {params : List (String × Syntax.TypeExpr)}
      {returnType : Syntax.TypeExpr} {effects : List Syntax.Effect} {body : Syntax.Block}
      (hparams : ∀ param ∈ params, InOrderType param.2) (hreturn : InOrderType returnType)
      (hsort : InOrderEffects effects) (hbody : InOrderBlock body) :
      InOrderExpr (.lambda params returnType effects effectRowVar body)
  | ascription {value : Syntax.Expr} {ty : Syntax.TypeExpr} (hvalue : InOrderExpr value)
      (hty : InOrderType ty) : InOrderExpr (.ascription value ty)

inductive InOrderBlock : Syntax.Block → Prop
  | mk {statements : List Syntax.Statement} {result : Syntax.Expr}
      (hstatements : ∀ stmt ∈ statements, InOrderStatement stmt) (hresult : InOrderExpr result) :
      InOrderBlock (.mk statements result)

inductive InOrderStatement : Syntax.Statement → Prop
  | letS (name : String) {ty : Option Syntax.TypeExpr} {value : Syntax.Expr} (hty : ∀ t ∈ ty, InOrderType t)
      (hvalue : InOrderExpr value) : InOrderStatement (.letS name ty value)
  | expr {e : Syntax.Expr} (he : InOrderExpr e) : InOrderStatement (.expr e)

end

def InOrderItem : Syntax.Item → Prop
  | .importDecl _ => True
  | .typeDecl decl => InOrderType display decl.definition
  | .fnDecl decl =>
    (∀ param ∈ decl.params, InOrderType display param.2) ∧ InOrderType display decl.returnType ∧
      InOrderBlock display decl.body ∧
      ∀ ex ∈ decl.examples, (∀ e ∈ ex.args, InOrderExpr display e) ∧ InOrderExpr display ex.expected

/-- **A program that canonicalization does not reorder.** -/
def InOrder (program : Syntax.Program) : Prop := ∀ item ∈ program.items, InOrderItem display item

end InOrder

/-! ## A printed program is in order -/

section Printed

variable (display : BitVec 64 → String) (readFloat : String → BitVec 64)

theorem rereadPatterns_eq_map (ps : List Pattern) :
    rereadPatterns readFloat ps = ps.map (rereadPattern readFloat) := by
  induction ps with
  | nil => rfl
  | cons p ps ih => rw [rereadPatterns, ih, map_cons]

theorem rereadPatternFields_eq_map (fields : List (String × Pattern)) : rereadPatternFields readFloat fields =
      fields.map fun field => (field.1, some (rereadPattern readFloat field.2)) := by
  induction fields with
  | nil => rfl
  | cons field fields ih => rw [rereadPatternFields, ih, map_cons]

theorem rereadTypes_eq_map (ts : List TypeExpr) : rereadTypes readFloat ts = ts.map (rereadType readFloat) := by
  induction ts with
  | nil => rfl
  | cons t ts ih => rw [rereadTypes, ih, map_cons]

theorem rereadTypeFields_eq_map (fields : List (String × TypeExpr)) :
    rereadTypeFields readFloat fields = fields.map fun field => (field.1, rereadType readFloat field.2) := by
  induction fields with
  | nil => rfl
  | cons field fields ih => rw [rereadTypeFields, ih, map_cons]

theorem rereadVariants_eq_map (variants : List (String × Option TypeExpr)) : rereadVariants readFloat variants =
      variants.map fun variant => (variant.1, variant.2.map (rereadType readFloat)) := by
  induction variants with
  | nil => rfl
  | cons variant variants ih =>
    match variant with
    | (name, some t) => rw [rereadVariants, ih]; rfl
    | (name, none) => rw [rereadVariants, ih]; rfl

theorem rereadExprs_eq_map (es : List CExpr) : rereadExprs readFloat es = es.map (rereadExpr readFloat) := by
  induction es with
  | nil => rfl
  | cons e es ih => rw [rereadExprs, ih, map_cons]

theorem rereadFields_eq_map (fields : List (String × CExpr)) :
    rereadFields readFloat fields = fields.map fun field => (field.1, rereadExpr readFloat field.2) := by
  induction fields with
  | nil => rfl
  | cons field fields ih => rw [rereadFields, ih, map_cons]

theorem rereadArms_eq_map (arms : List (Pattern × CExpr)) : rereadArms readFloat arms =
      arms.map fun arm => (rereadPattern readFloat arm.1, rereadExpr readFloat arm.2) := by
  induction arms with
  | nil => rfl
  | cons arm arms ih => rw [rereadArms, ih, map_cons]

/-- A canonical expression that prints in order. -/
def PrintsInOrder (e : CExpr) : Prop := InOrderExpr display (rereadExpr readFloat e)

/-- The parts of a statement print in order. -/
def PartsInOrder : CStatement → Prop
  | .letS _ ty value =>
    (∀ t ∈ ty, InOrderType display (rereadType readFloat t)) ∧ PrintsInOrder display readFloat value
  | .expr e => PrintsInOrder display readFloat e

theorem inOrder_pattern_steps : Syntax.PatternSteps fun p =>
    InOrderPattern display (rereadPattern readFloat (canonicalizePattern display p)) where
  lit l := by
    exact .lit _
  var name := by
    rw [canonicalizePattern]
    split
    · rw [rereadPattern]
      exact .var name
    · rw [rereadPattern]
      exact .var name
  wild := by
    exact .wild
  constructor name args hargs := by
    rw [canonicalizePattern, canonicalizePatterns_eq_map, rereadPattern]
    split
    · exact .var name
    · rw [rereadPatterns_eq_map, List.map_map]
      exact .constructor name (List.forall_mem_map.mpr hargs)
  record fields rest hfields := by
    rw [canonicalizePattern, canonicalizePatternFields_eq_map, rereadPattern, rereadPatternFields_eq_map]
    refine .record false (List.forall_mem_map.mpr fun field hfield p hp => ?_) ?_
    · -- a field of the printed record is one of the source, or the name alone
      obtain rfl := some.inj hp
      obtain ⟨source, hsource, rfl⟩ := List.mem_map.mp ((perm_sortBy Prod.fst _).mem_iff.mp hfield)
      obtain ⟨name, pattern⟩ := source
      match pattern, hfields _ hsource with
      | some p, hp => exact hp p rfl
      | none, _ =>
        show InOrderPattern display (rereadPattern readFloat (.pVar name))
        exact .var name
    · rw [canonicalizePatternFields_eq_map, List.map_map]
      exact sortBy_map_sortBy Prod.fst (fun _ => rfl) _
  tuple items hitems := by
    rw [canonicalizePattern, canonicalizePatterns_eq_map, rereadPattern, rereadPatterns_eq_map, List.map_map]
    exact .tuple (List.forall_mem_map.mpr hitems)

theorem inOrder_effects (effects : List Syntax.Effect) :
    InOrderEffects ((sortBy Effect.name (effects.map canonicalizeEffect)).map rereadEffect) := by
  unfold InOrderEffects
  rw [List.map_map]
  exact sortBy_map_sortBy Effect.name (fun _ => rfl) _

theorem inOrder_asBlock {e : CExpr} (h : PrintsInOrder display readFloat e) :
    InOrderBlock display (asBlock e (rereadExpr readFloat e)) := by
  unfold PrintsInOrder at h
  unfold asBlock
  split
  · rename_i b hb
    rw [hb] at h
    match h with
    | .block hblock => exact hblock
  · rename_i b hb
    rw [hb] at h
    match h with
    | .block hblock => exact hblock
  · exact .mk (fun _ hstmt => absurd hstmt not_mem_nil) h

theorem inOrder_prepend {stmts : List Syntax.Statement} {b : Syntax.Block}
    (hstmts : ∀ stmt ∈ stmts, InOrderStatement display stmt) (hb : InOrderBlock display b) :
    InOrderBlock display (prepend stmts b) := by
  match hb with
  | .mk hstatements hresult =>
    refine .mk (fun stmt hstmt => ?_) hresult
    rcases mem_append.mp hstmt with hnew | hold
    · exact hstmts stmt hnew
    · exact hstatements stmt hold

theorem printsInOrder_let {name : String} {ty : Option TypeExpr} {value body : CExpr}
    (hparts : PartsInOrder display readFloat (.letS name ty value)) (hbody : PrintsInOrder display readFloat body) :
    PrintsInOrder display readFloat (.letE name ty value body) := by
  unfold PrintsInOrder
  match ty with
  | some t =>
    refine .block (inOrder_prepend display ?_ (inOrder_asBlock display readFloat hbody))
    refine forall_mem_singleton.mpr (.letS name (fun t' ht' => ?_) hparts.2)
    obtain rfl := some.inj ht'
    exact hparts.1 t rfl
  | none =>
    refine .block (inOrder_prepend display ?_ (inOrder_asBlock display readFloat hbody))
    exact forall_mem_singleton.mpr (.letS name (fun t' ht' => nomatch ht') hparts.2)

theorem printsInOrder_flush {pending : List CExpr} {acc : CExpr}
    (hpending : ∀ e ∈ pending, PrintsInOrder display readFloat e) (hacc : PrintsInOrder display readFloat acc) :
    PrintsInOrder display readFloat (flushPending pending acc) := by
  match pending, hpending with
  | [], _ => exact hacc
  | e :: pending, hpending =>
    unfold PrintsInOrder
    rw [flushPending_cons, rereadExpr, rereadExprs_eq_map, List.map_map]
    refine .block (inOrder_prepend display ?_ (inOrder_asBlock display readFloat hacc))
    exact List.forall_mem_map.mpr fun e he => .expr (hpending e he)

theorem printsInOrder_foldBlock {stmts : List CStatement} {result : CExpr}
    (hstmts : ∀ stmt ∈ stmts, PartsInOrder display readFloat stmt)
    (hresult : PrintsInOrder display readFloat result) :
    PrintsInOrder display readFloat (foldBlock stmts result) := by
  suffices h : PrintsInOrder display readFloat (stmts.foldr foldStatement (result, [])).1 ∧
      ∀ e ∈ (stmts.foldr foldStatement (result, [])).2, PrintsInOrder display readFloat e from
    printsInOrder_flush display readFloat h.2 h.1
  induction stmts with
  | nil => exact ⟨hresult, fun _ h => absurd h not_mem_nil⟩
  | cons stmt stmts ih =>
    obtain ⟨hstmt, hrest⟩ := forall_mem_cons.mp hstmts
    obtain ⟨hacc, hpending⟩ := ih hrest
    match stmt, hstmt with
    | .letS name ty value, hstmt =>
      refine ⟨?_, fun _ h => absurd h not_mem_nil⟩
      exact printsInOrder_let display readFloat hstmt (printsInOrder_flush display readFloat hpending hacc)
    | .expr e, hstmt => exact ⟨hacc, forall_mem_cons.mpr ⟨hstmt, hpending⟩⟩

theorem printsInOrder_call {callee : CExpr} {args : List CExpr} :
    PrintsInOrder display readFloat (.call callee args) ↔
      PrintsInOrder display readFloat callee ∧ ∀ e ∈ args, PrintsInOrder display readFloat e := by
  unfold PrintsInOrder
  rw [rereadExpr, rereadExprs_eq_map]
  constructor
  · rintro ⟨⟩
    rename_i hcallee hargs
    exact ⟨hcallee, List.forall_mem_map.mp hargs⟩
  · rintro ⟨hcallee, hargs⟩
    exact .call hcallee (List.forall_mem_map.mpr hargs)

theorem printsInOrder_constructor {name : String} {args : List CExpr} :
    PrintsInOrder display readFloat (.constructor name args) ↔ ∀ e ∈ args, PrintsInOrder display readFloat e := by
  unfold PrintsInOrder
  rw [rereadExpr]
  split
  · rename_i hempty
    obtain rfl := List.isEmpty_iff.mp hempty
    exact iff_of_true (.var name) fun _ h => absurd h not_mem_nil
  · rw [rereadExprs_eq_map]
    constructor
    · rintro ⟨⟩
      rename_i _ hargs
      exact List.forall_mem_map.mp hargs
    · exact fun hargs => .call (.var name) (List.forall_mem_map.mpr hargs)

/-- A pipe puts one more argument before those of its right side. -/
theorem printsInOrder_pipe {folding : Bool} {left right : CExpr}
    (hleft : PrintsInOrder display readFloat (comesTo folding left))
    (hright : PrintsInOrder display readFloat (comesTo folding right)) :
    PrintsInOrder display readFloat (comesTo folding (pipeInto left right)) := by
  match hhead : headOf right with
  | .call =>
    obtain ⟨callee, args, rfl⟩ := eq_call_of_headOf hhead
    rw [comesTo_call, printsInOrder_call] at hright
    rw [pipeInto, comesTo_call, printsInOrder_call]
    exact ⟨hright.1, forall_mem_cons.mpr ⟨hleft, hright.2⟩⟩
  | .constructor =>
    obtain ⟨name, args, rfl⟩ := eq_constructor_of_headOf hhead
    rw [comesTo_constructor, printsInOrder_constructor] at hright
    rw [pipeInto, comesTo_constructor, printsInOrder_constructor]
    exact forall_mem_cons.mpr ⟨hleft, hright⟩
  | .other =>
    rw [pipeInto_other hhead, comesTo_call, printsInOrder_call]
    exact ⟨hright, forall_mem_singleton.mpr hleft⟩

theorem printsInOrder_match {scrutinee : CExpr} {arms : List (Pattern × CExpr)}
    (hscrutinee : PrintsInOrder display readFloat scrutinee)
    (hpatterns : ∀ arm ∈ arms, InOrderPattern display (rereadPattern readFloat arm.1))
    (hbodies : ∀ arm ∈ arms, PrintsInOrder display readFloat arm.2) :
    PrintsInOrder display readFloat (.matchE scrutinee arms) := by
  unfold PrintsInOrder
  rw [rereadExpr, rereadArms_eq_map]
  exact .matchE hscrutinee (List.forall_mem_map.mpr hpatterns) (List.forall_mem_map.mpr hbodies)

theorem printsInOrder_var (name : String) : PrintsInOrder display readFloat (.var name) := by
  unfold PrintsInOrder
  exact .var name

theorem printsInOrder_try {v : CExpr} (hv : PrintsInOrder display readFloat v) :
    PrintsInOrder display readFloat (tryMatch v) := by
  have hpattern : ∀ name var : String,
      InOrderPattern display (rereadPattern readFloat (.pConstructor name [.pVar var])) := by
    intro name var
    refine .constructor name (forall_mem_singleton.mpr ?_)
    exact .var var
  have herr : PrintsInOrder display readFloat (.returnE (.constructor "Err" [.var "e"])) := by
    unfold PrintsInOrder
    exact (printsInOrder_constructor display readFloat).mpr
      (forall_mem_singleton.mpr (printsInOrder_var display readFloat "e"))
  refine printsInOrder_match display readFloat hv ?_ ?_
  · exact forall_mem_cons.mpr ⟨hpattern "Ok" "v", forall_mem_singleton.mpr (hpattern "Err" "e")⟩
  · exact forall_mem_cons.mpr ⟨printsInOrder_var display readFloat "v", forall_mem_singleton.mpr herr⟩

theorem inOrder_typeFields {fields : List (String × Syntax.TypeExpr)}
    (hfields : ∀ field ∈ fields, InOrderType display (rereadType readFloat (canonicalizeType display field.2))) :
    ∀ field ∈ rereadTypeFields readFloat (canonicalizeTypeFields display fields), InOrderType display field.2 := by
  rw [canonicalizeTypeFields_eq_map, rereadTypeFields_eq_map, List.map_map]
  exact List.forall_mem_map.mpr hfields

/-- **Printed, every part of a program is in order.** -/
theorem inOrder_steps : Syntax.TreeSteps
    (fun t => InOrderType display (rereadType readFloat (canonicalizeType display t)))
    (fun e => ∀ folding, PrintsInOrder display readFloat (exprTo display folding e))
    (fun b => ∀ folding, PrintsInOrder display readFloat (blockTo display folding b))
    (fun s => ∀ folding, PartsInOrder display readFloat (statementTo display folding s)) where
  named name args hargs := by
    rw [canonicalizeType, canonicalizeTypes_eq_map, rereadType, rereadTypes_eq_map, List.map_map]
    exact .named name (List.forall_mem_map.mpr hargs)
  record fields hfields := by
    rw [canonicalizeType, canonicalizeTypeFields_eq_map, rereadType, rereadTypeFields_eq_map]
    refine .record (List.forall_mem_map.mpr fun field hfield => ?_) ?_
    · obtain ⟨source, hsource, rfl⟩ := List.mem_map.mp ((perm_sortBy Prod.fst _).mem_iff.mp hfield)
      exact hfields source hsource
    · rw [canonicalizeTypeFields_eq_map, List.map_map]
      exact sortBy_map_sortBy Prod.fst (fun _ => rfl) _
  tuple items hitems := by
    rw [canonicalizeType, canonicalizeTypes_eq_map, rereadType, rereadTypes_eq_map, List.map_map]
    exact .tuple (List.forall_mem_map.mpr hitems)
  function params effects effectRowVar ret hparams hret := by
    rw [canonicalizeType, canonicalizeTypes_eq_map, rereadType, rereadTypes_eq_map, List.map_map]
    exact .function effectRowVar (List.forall_mem_map.mpr hparams) (inOrder_effects effects) hret
  union variants hvariants := by
    rw [canonicalizeType, canonicalizeVariants_eq_map, rereadType, rereadVariants_eq_map]
    refine .union (List.forall_mem_map.mpr fun variant hvariant t ht => ?_) ?_
    · obtain ⟨source, hsource, rfl⟩ := List.mem_map.mp ((perm_sortBy Prod.fst _).mem_iff.mp hvariant)
      obtain ⟨name, payload⟩ := source
      match payload, ht, hvariants _ hsource with
      | some u, ht, hu =>
        obtain rfl := some.inj ht
        exact hu u rfl
    · rw [canonicalizeVariants_eq_map, List.map_map]
      exact sortBy_map_sortBy Prod.fst (fun _ => rfl) _
  recordWithSpreads spreads fields hfields := by
    exact .recordWithSpreads spreads (inOrder_typeFields display readFloat hfields)
  refined base binding predicate hbase hpredicate := by
    exact .refined binding hbase (hpredicate false)
  lit l folding := by
    unfold exprTo PrintsInOrder
    rw [canonicalizeExpr, comesTo_literal, rereadExpr]
    exact .lit _
  var name folding := by
    unfold exprTo
    rw [canonicalizeExpr]
    split
    · rw [comesTo_constructor, printsInOrder_constructor]
      exact fun _ h => absurd h not_mem_nil
    · rw [comesTo_var]
      exact printsInOrder_var display readFloat name
  block b hb folding := by
    unfold exprTo
    exact hb folding
  call callee args hcallee hargs folding := by
    rw [exprTo_call]
    split
    · rw [printsInOrder_constructor]
      exact List.forall_mem_map.mpr fun e he => hargs e he folding
    · rw [printsInOrder_call]
      exact ⟨hcallee folding, List.forall_mem_map.mpr fun e he => hargs e he folding⟩
  pipe left right hleft hright folding := by
    unfold exprTo
    exact printsInOrder_pipe display readFloat (hleft folding) (hright folding)
  tryE inner hinner folding := by
    unfold exprTo
    rw [canonicalizeExpr, comesTo_tryMatch]
    exact printsInOrder_try display readFloat (hinner folding)
  field value field hvalue folding := by
    unfold exprTo PrintsInOrder
    rw [canonicalizeExpr, comesTo_fieldAccess, rereadExpr]
    exact .field field (hvalue folding)
  binOp op lhs rhs hlhs hrhs folding := by
    unfold exprTo PrintsInOrder
    rw [canonicalizeExpr, comesTo_binOp, rereadExpr]
    exact .binOp _ (hlhs folding) (hrhs folding)
  unaryOp op expr hexpr folding := by
    unfold exprTo PrintsInOrder
    simp only [canonicalizeExpr, comesTo_unaryOp, rereadExpr]
    exact .unaryOp _ (hexpr folding)
  ifE cond thenBlock elseBlock hcond hthen helse folding := by
    rw [exprTo_if]
    split
    · rename_i b htaken
      obtain ⟨-, ⟨-, rfl⟩ | ⟨-, rfl⟩⟩ := (takenBlock_eq_some_iff display folding).mp htaken
      · exact hthen folding
      · exact helse folding
    · have hpattern : ∀ b : Bool, InOrderPattern display (rereadPattern readFloat (.pLiteral (.bool b))) := by
        intro b
        exact .lit _
      refine printsInOrder_match display readFloat (hcond folding) ?_ ?_
      · exact forall_mem_cons.mpr ⟨hpattern true, forall_mem_singleton.mpr (hpattern false)⟩
      · exact forall_mem_cons.mpr ⟨hthen folding, forall_mem_singleton.mpr (helse folding)⟩
  matchE scrutinee arms hscrutinee harms folding := by
    rw [exprTo_match]
    split
    · rename_i arm htaken
      exact harms arm (mem_of_takenArm display folding htaken) folding
    · refine printsInOrder_match display readFloat (hscrutinee folding) ?_ ?_
      · exact List.forall_mem_map.mpr fun arm _ => (inOrder_pattern_steps display readFloat).onPattern arm.1
      · exact List.forall_mem_map.mpr fun arm harm => harms arm harm folding
  recordLit fields hfields folding := by
    rw [exprTo_recordLit]
    unfold PrintsInOrder
    rw [rereadExpr, rereadFields_eq_map]
    refine .recordLit (List.forall_mem_map.mpr fun field hfield => ?_) ?_
    · obtain ⟨source, hsource, rfl⟩ := List.mem_map.mp ((perm_sortBy Prod.fst _).mem_iff.mp hfield)
      exact hfields source hsource folding
    · rw [canonicalizeFields_eq_map, List.map_map]
      exact sortBy_map_sortBy Prod.fst (fun _ => rfl) _
  tupleLit items hitems folding := by
    unfold exprTo PrintsInOrder
    rw [canonicalizeExpr, comesTo_tupleLit, exprTo_items, rereadExpr, rereadExprs_eq_map, List.map_map]
    exact .tupleLit (List.forall_mem_map.mpr fun e he => hitems e he folding)
  listLit items hitems folding := by
    unfold exprTo PrintsInOrder
    rw [canonicalizeExpr, comesTo_listLit, exprTo_items, rereadExpr, rereadExprs_eq_map, List.map_map]
    exact .listLit (List.forall_mem_map.mpr fun e he => hitems e he folding)
  constructor name args hargs folding := by
    unfold exprTo
    rw [canonicalizeExpr, comesTo_constructor, exprTo_items, printsInOrder_constructor]
    exact List.forall_mem_map.mpr fun e he => hargs e he folding
  lambda params returnType effects effectRowVar body hparams hreturn hbody folding := by
    unfold exprTo PrintsInOrder
    rw [canonicalizeExpr, comesTo_lambda, rereadExpr]
    exact .lambda effectRowVar (inOrder_typeFields display readFloat hparams) hreturn (inOrder_effects effects)
      (inOrder_asBlock display readFloat (hbody folding))
  ascription value ty hvalue hty folding := by
    unfold exprTo
    rw [canonicalizeExpr, comesTo_letE, comesTo_var]
    refine printsInOrder_let display readFloat ⟨fun t ht => ?_, hvalue folding⟩ (printsInOrder_var display readFloat _)
    obtain rfl := some.inj ht
    exact hty
  statements statements result hstatements hresult folding := by
    rw [blockTo_mk]
    refine printsInOrder_foldBlock display readFloat ?_ (hresult folding)
    exact List.forall_mem_map.mpr fun stmt hstmt => hstatements stmt hstmt folding
  letS name ty value hty hvalue folding := by
    rw [statementTo_letS]
    refine ⟨fun t ht => ?_, hvalue folding⟩
    obtain ⟨source, hsource, rfl⟩ := map_eq_some_iff.mp ht
    exact hty source hsource
  expr e he folding := by
    exact he folding

theorem inOrder_item (item : Syntax.Item) : InOrderItem display (rereadStage readFloat (itemTo display item)) := by
  have hsteps := inOrder_steps display readFloat
  match item with
  | .importDecl _ => trivial
  | .typeDecl decl => exact hsteps.onType decl.definition
  | .fnDecl decl =>
    refine ⟨inOrder_typeFields display readFloat fun param _ => hsteps.onType param.2,
      hsteps.onType decl.returnType, inOrder_asBlock display readFloat (hsteps.onBlock decl.body true), ?_⟩
    show ∀ ex ∈ (decl.examples.map (canonicalizeExample display)).map fun ex =>
      Syntax.Example.mk (rereadExprs readFloat ex.args) (rereadExpr readFloat ex.expected), _
    rw [List.map_map]
    refine List.forall_mem_map.mpr fun ex _ => ⟨?_, hsteps.onExpr ex.expected false⟩
    show ∀ e ∈ rereadExprs readFloat (canonicalizeExprs display ex.args), _
    rw [canonicalizeExprs_eq_map, rereadExprs_eq_map, List.map_map]
    exact List.forall_mem_map.mpr fun e _ => hsteps.onExpr e false

theorem inOrder_addHeader {header : List String} {stages : List Stage}
    (h : ∀ stage ∈ stages, InOrderItem display (rereadStage readFloat stage)) :
    ∀ stage ∈ addHeader header stages, InOrderItem display (rereadStage readFloat stage) := by
  induction stages with
  | nil => exact h
  | cons stage stages ih =>
    obtain ⟨hstage, hrest⟩ := forall_mem_cons.mp h
    match stage, hstage with
    | .fnDecl _, hstage | .typeDecl _, hstage => exact forall_mem_cons.mpr ⟨hstage, hrest⟩
    | .importDecl _, hstage => exact forall_mem_cons.mpr ⟨hstage, ih hrest⟩

theorem inOrder_liftComments {items : List Syntax.Item} (h : ∀ item ∈ items, InOrderItem display item) :
    InOrder display (liftComments items) := by
  match items with
  | [] => exact h
  | .importDecl _ :: _ => exact h
  | .typeDecl _ :: _ | .fnDecl _ :: _ =>
    obtain ⟨hfirst, hrest⟩ := forall_mem_cons.mp h
    exact forall_mem_cons.mpr ⟨hfirst, hrest⟩

/-- **Canonicalizing a printed program reorders nothing.** -/
theorem inOrder_reread (program : Syntax.Program) :
    InOrder display (reread readFloat (canonicalizeProgram display program)) := by
  refine inOrder_liftComments display (List.forall_mem_map.mpr ?_)
  have hitems : ∀ stage ∈ program.items.map (itemTo display), InOrderItem display (rereadStage readFloat stage) :=
    List.forall_mem_map.mpr fun item _ => inOrder_item display readFloat item
  rw [canonicalizeProgram_eq]
  split
  · exact hitems
  · exact inOrder_addHeader display readFloat hitems

end Printed

/-! ## Both halves -/

/-- **Identity ignores the order of entries**, of one program: however they are ordered, the program
canonicalizes to the same stages, with the same identities; and what it canonicalizes to is not
reordered again. -/
structure IgnoresOrder (display : BitVec 64 → String) (program : Syntax.Program) : Prop where
  stages : ∀ program', program.Permuted program' →
    canonicalizeProgram display program' = canonicalizeProgram display program
  sigIds : ∀ program', program.Permuted program' → ∀ hashes : Hashes,
    (canonicalizeProgram display program').map (sigId hashes) =
      (canonicalizeProgram display program).map (sigId hashes)
  stageIds : ∀ program', program.Permuted program' → ∀ hashes : Hashes,
    (canonicalizeProgram display program').map (stageId hashes) =
      (canonicalizeProgram display program).map (stageId hashes)
  printed : ∀ readFloat : String → BitVec 64,
    InOrder display (reread readFloat (canonicalizeProgram display program))

/-- **Identity ignores the order of entries exactly of steady programs.** -/
theorem ignoresOrder_iff (display : BitVec 64 → String) (program : Syntax.Program) :
    IgnoresOrder display program ↔ Steady display program := by
  rw [← invariant_program_iff]
  constructor
  · exact fun h => h.stages
  · intro h
    refine ⟨h, fun program' hpermuted hashes => ?_, fun program' hpermuted hashes => ?_, fun readFloat => ?_⟩
    · rw [h program' hpermuted]
    · rw [h program' hpermuted]
    · exact inOrder_reread display readFloat program

/-- `fn f() -> [net, io] Int { 1 }`, with its effects in either order. -/
def twoEffects (effects : List Syntax.Effect) : Syntax.Program where
  items := [.fnDecl
    { name := "f", typeParams := [], params := [], effects := effects, effectRowVar := none
      returnType := .named "Int" [], body := .mk [] (.lit (.int 1)), examples := [], leadingComments := [] }]
  leadingComments := []

/-- **The effects of a function declaration are not sorted**: written in another order, they make another
stage, and another sig id. -/
theorem effects_keep_order : ¬ ∀ (display : BitVec 64 → String) (program : Syntax.Program),
    IgnoresOrder display program := by
  intro h
  let netIo := twoEffects [⟨"net", none⟩, ⟨"io", none⟩]
  let ioNet := twoEffects [⟨"io", none⟩, ⟨"net", none⟩]
  have hpermuted : netIo.Permuted ioNet := by
    refine .mk [] (.cons (.fnDecl (.mk "f" [] none [] .nil ⟨forall₂_refl fun _ _ => rfl, ?_⟩ ?_ ?_ .nil)) .nil)
    · exact List.Perm.swap ..
    · exact (Syntax.TypeExpr.named "Int" []).permuted_refl
    · exact (Syntax.Block.mk [] (.lit (.int 1))).permuted_refl
  have hstages := (h (fun _ => "") netIo).stages ioNet hpermuted
  have heffects : (canonicalizeProgram (fun _ => "") ioNet).map (fun stage => stage.sigContent false) =
      (canonicalizeProgram (fun _ => "") netIo).map fun stage => stage.sigContent false := by
    rw [hstages]
  simp [ioNet, netIo, twoEffects, canonicalizeProgram, canonicalizeItem, canonicalizeFnDecl,
    eliminateDeadBranchesInStages, eliminateInStage, Stage.sigContent, canonicalizeEffect] at heffects

end LexLang.Ast
