/-
# LexLang.Ast.ComesTo — what the parts of a program canonicalize to

Canonicalization with the folding of dead branches, part by part: what an expression comes to is told by
what its parts come to. In bodies branches are folded, in types and examples they are not; `folding`
says which.
-/
import LexLang.Ast.Canonicalize

namespace LexLang.Ast

open LexLang.Order
open List Option

variable (display : BitVec 64 → String)

/-! ## Lists of parts -/

theorem canonicalizePatterns_eq_map (ps : List Syntax.Pattern) :
    canonicalizePatterns display ps = ps.map (canonicalizePattern display) := by
  induction ps with
  | nil => rfl
  | cons p ps ih => rw [canonicalizePatterns, ih, map_cons]

/-- A field of a record pattern. -/
def patternField (field : String × Option Syntax.Pattern) : String × Pattern :=
  (field.1, (field.2.map (canonicalizePattern display)).getD (.pVar field.1))

theorem canonicalizePatternFields_eq_map (fields : List (String × Option Syntax.Pattern)) :
    canonicalizePatternFields display fields = fields.map (patternField display) := by
  induction fields with
  | nil => rfl
  | cons field fields ih =>
    match field with
    | (name, some p) => rw [canonicalizePatternFields, ih, map_cons]; rfl
    | (name, none) => rw [canonicalizePatternFields, ih, map_cons]; rfl

theorem canonicalizeTypes_eq_map (ts : List Syntax.TypeExpr) :
    canonicalizeTypes display ts = ts.map (canonicalizeType display) := by
  induction ts with
  | nil => rfl
  | cons t ts ih => rw [canonicalizeTypes, ih, map_cons]

/-- A field of a record type, or a parameter. -/
def typeField (field : String × Syntax.TypeExpr) : String × TypeExpr :=
  (field.1, canonicalizeType display field.2)

theorem canonicalizeTypeFields_eq_map (fields : List (String × Syntax.TypeExpr)) :
    canonicalizeTypeFields display fields = fields.map (typeField display) := by
  induction fields with
  | nil => rfl
  | cons field fields ih => rw [canonicalizeTypeFields, ih, map_cons]; rfl

/-- A variant of a union. -/
def variantOf (variant : String × Option Syntax.TypeExpr) : String × Option TypeExpr :=
  (variant.1, variant.2.map (canonicalizeType display))

theorem canonicalizeVariants_eq_map (variants : List (String × Option Syntax.TypeExpr)) :
    canonicalizeVariants display variants = variants.map (variantOf display) := by
  induction variants with
  | nil => rfl
  | cons variant variants ih =>
    match variant with
    | (name, some t) => rw [canonicalizeVariants, ih, map_cons]; rfl
    | (name, none) => rw [canonicalizeVariants, ih, map_cons]; rfl

theorem canonicalizeExprs_eq_map (es : List Syntax.Expr) :
    canonicalizeExprs display es = es.map (canonicalizeExpr display) := by
  induction es with
  | nil => rfl
  | cons e es ih => rw [canonicalizeExprs, ih, map_cons]

theorem canonicalizeFields_eq_map (fields : List (String × Syntax.Expr)) :
    canonicalizeFields display fields = fields.map fun field => (field.1, canonicalizeExpr display field.2) := by
  induction fields with
  | nil => rfl
  | cons field fields ih => rw [canonicalizeFields, ih, map_cons]

theorem canonicalizeArms_eq_map (arms : List (Syntax.Pattern × Syntax.Expr)) : canonicalizeArms display arms =
      arms.map fun arm => (canonicalizePattern display arm.1, canonicalizeExpr display arm.2) := by
  induction arms with
  | nil => rfl
  | cons arm arms ih => rw [canonicalizeArms, ih, map_cons]

theorem canonicalizeStatements_eq_map (stmts : List Syntax.Statement) :
    canonicalizeStatements display stmts = stmts.map (canonicalizeStatement display) := by
  induction stmts with
  | nil => rfl
  | cons stmt stmts ih => rw [canonicalizeStatements, ih, map_cons]

theorem foldAll_eq_map (es : List CExpr) : foldAll es = es.map fold := by
  induction es with
  | nil => rfl
  | cons e es ih => rw [foldAll, ih, map_cons]

theorem foldFields_eq_map (fields : List (String × CExpr)) :
    foldFields fields = fields.map fun field => (field.1, fold field.2) := by
  induction fields with
  | nil => rfl
  | cons field fields ih => rw [foldFields, ih, map_cons]

theorem foldArms_eq_map (arms : List (Pattern × CExpr)) :
    foldArms arms = arms.map fun arm => (arm.1, fold arm.2) := by
  induction arms with
  | nil => rfl
  | cons arm arms ih => rw [foldArms, ih, map_cons]

/-! ## What parts come to -/

/-- What an expression comes to: folded in a body, as it is elsewhere. -/
def comesTo (folding : Bool) (e : CExpr) : CExpr := if folding then fold e else e

def exprTo (folding : Bool) (e : Syntax.Expr) : CExpr := comesTo folding (canonicalizeExpr display e)

def fieldTo (folding : Bool) (field : String × Syntax.Expr) : String × CExpr :=
  (field.1, exprTo display folding field.2)

def blockTo (folding : Bool) (b : Syntax.Block) : CExpr := comesTo folding (canonicalizeBlock display b)

def CStatement.comesTo (folding : Bool) : CStatement → CStatement
  | .letS name ty value => .letS name ty (Ast.comesTo folding value)
  | .expr e => .expr (Ast.comesTo folding e)

def statementTo (folding : Bool) (stmt : Syntax.Statement) : CStatement :=
  (canonicalizeStatement display stmt).comesTo folding

theorem exprTo_false (e : Syntax.Expr) : exprTo display false e = canonicalizeExpr display e := rfl

/-- The arm a match is folded to, if it is folded. -/
def takenArm (folding : Bool) (scrutinee : Syntax.Expr) (arms : List (Syntax.Pattern × Syntax.Expr)) :
    Option (Syntax.Pattern × Syntax.Expr) :=
  if folding then
    (literalOf (canonicalizeExpr display scrutinee)).bind fun l =>
      arms.find? fun arm => patternMatchesLiteral (canonicalizePattern display arm.1) l
  else none

/-- The branch an `if` is folded to, if it is folded. -/
def takenBlock (folding : Bool) (cond : Syntax.Expr) (thenBlock elseBlock : Syntax.Block) :
    Option Syntax.Block :=
  if folding then
    match literalOf (canonicalizeExpr display cond) with
    | some (.bool true) => some thenBlock
    | some (.bool false) => some elseBlock
    | _ => none
  else none

/-! ## What expressions come to -/

section ComesTo

theorem comesTo_false : comesTo false = id := rfl

theorem comesTo_true : comesTo true = fold := rfl

variable (folding : Bool)

@[simp] theorem comesTo_literal (value : CLit) : comesTo folding (.literal value) = .literal value := by
  cases folding <;> simp [comesTo_true, comesTo_false, fold]

@[simp] theorem comesTo_var (name : String) : comesTo folding (.var name) = .var name := by
  cases folding <;> simp [comesTo_true, comesTo_false, fold]

@[simp] theorem comesTo_call (callee : CExpr) (args : List CExpr) :
    comesTo folding (.call callee args) = .call (comesTo folding callee) (args.map (comesTo folding)) := by
  cases folding <;> simp [comesTo_true, comesTo_false, fold, foldAll_eq_map]

@[simp] theorem comesTo_letE (name : String) (ty : Option TypeExpr) (value body : CExpr) :
    comesTo folding (.letE name ty value body) = .letE name ty (comesTo folding value) (comesTo folding body) := by
  cases folding <;> simp [comesTo_true, comesTo_false, fold]

@[simp] theorem comesTo_block (statements : List CExpr) (result : CExpr) :
    comesTo folding (.block statements result) =
      .block (statements.map (comesTo folding)) (comesTo folding result) := by
  cases folding <;> simp [comesTo_true, comesTo_false, fold, foldAll_eq_map]

@[simp] theorem comesTo_constructor (name : String) (args : List CExpr) :
    comesTo folding (.constructor name args) = .constructor name (args.map (comesTo folding)) := by
  cases folding <;> simp [comesTo_true, comesTo_false, fold, foldAll_eq_map]

@[simp] theorem comesTo_recordLit (fields : List (String × CExpr)) : comesTo folding (.recordLit fields) =
      .recordLit (fields.map fun field => (field.1, comesTo folding field.2)) := by
  cases folding <;> simp [comesTo_true, comesTo_false, fold, foldFields_eq_map]

@[simp] theorem comesTo_tupleLit (items : List CExpr) :
    comesTo folding (.tupleLit items) = .tupleLit (items.map (comesTo folding)) := by
  cases folding <;> simp [comesTo_true, comesTo_false, fold, foldAll_eq_map]

@[simp] theorem comesTo_listLit (items : List CExpr) :
    comesTo folding (.listLit items) = .listLit (items.map (comesTo folding)) := by
  cases folding <;> simp [comesTo_true, comesTo_false, fold, foldAll_eq_map]

@[simp] theorem comesTo_fieldAccess (value : CExpr) (field : String) :
    comesTo folding (.fieldAccess value field) = .fieldAccess (comesTo folding value) field := by
  cases folding <;> simp [comesTo_true, comesTo_false, fold]

@[simp] theorem comesTo_lambda (params : List (String × TypeExpr)) (returnType : TypeExpr)
    (effects : List Effect) (effectRowVar : Option String) (body : CExpr) :
    comesTo folding (.lambda params returnType effects effectRowVar body) =
      .lambda params returnType effects effectRowVar (comesTo folding body) := by
  cases folding <;> simp [comesTo_true, comesTo_false, fold]

@[simp] theorem comesTo_binOp (op : String) (lhs rhs : CExpr) :
    comesTo folding (.binOp op lhs rhs) = .binOp op (comesTo folding lhs) (comesTo folding rhs) := by
  cases folding <;> simp [comesTo_true, comesTo_false, fold]

@[simp] theorem comesTo_unaryOp (op : String) (expr : CExpr) :
    comesTo folding (.unaryOp op expr) = .unaryOp op (comesTo folding expr) := by
  cases folding <;> simp [comesTo_true, comesTo_false, fold]

/-- The match of a `?` is never folded: it has no arm for a literal. -/
@[simp] theorem comesTo_tryMatch (v : CExpr) : comesTo folding (tryMatch v) = tryMatch (comesTo folding v) := by
  cases folding
  · rfl
  · show fold (tryMatch v) = tryMatch (fold v)
    unfold tryMatch
    rw [fold, foldArms_eq_map]
    unfold tryFoldLiteralMatch
    split
    · simp [patternMatchesLiteral, fold, foldAll]
    · simp [fold, foldAll]

end ComesTo

/-! ### Blocks -/

@[simp] theorem flushPending_nil (acc : CExpr) : flushPending [] acc = acc := rfl

@[simp] theorem flushPending_cons (e : CExpr) (pending : List CExpr) (acc : CExpr) :
    flushPending (e :: pending) acc = .block (e :: pending) acc := rfl

theorem comesTo_flushPending (folding : Bool) (pending : List CExpr) (acc : CExpr) :
    comesTo folding (flushPending pending acc) =
      flushPending (pending.map (comesTo folding)) (comesTo folding acc) := by
  cases pending with
  | nil => rfl
  | cons e pending => simp

/-- As many waiting: the same waiting, and the same after. -/
theorem flushPending_inj {pending pending' : List CExpr} {acc acc' : CExpr}
    (hlength : pending.length = pending'.length) :
    flushPending pending acc = flushPending pending' acc' ↔ acc = acc' ∧ pending = pending' := by
  match pending, pending', hlength with
  | [], [], _ => simp
  | e :: pending, e' :: pending', _ =>
    rw [flushPending_cons, flushPending_cons, CExpr.block.injEq]
    exact and_comm

/-- Statements with their parts folded fold to the same block with its parts folded. -/
theorem foldr_comesTo (folding : Bool) (stmts : List CStatement) (result : CExpr) :
    (stmts.map (CStatement.comesTo folding)).foldr foldStatement (comesTo folding result, []) =
      Prod.map (comesTo folding) (List.map (comesTo folding)) (stmts.foldr foldStatement (result, [])) := by
  induction stmts with
  | nil => rfl
  | cons stmt stmts ih =>
    rw [map_cons, foldr_cons, foldr_cons, ih]
    match stmt with
    | .letS name ty value =>
      simp [foldStatement, CStatement.comesTo, comesTo_flushPending]
    | .expr e => rfl

theorem comesTo_foldBlock (folding : Bool) (stmts : List CStatement) (result : CExpr) :
    comesTo folding (foldBlock stmts result) =
      foldBlock (stmts.map (CStatement.comesTo folding)) (comesTo folding result) := by
  show comesTo folding (flushPending _ _) = flushPending _ _
  rw [comesTo_flushPending, foldr_comesTo]
  rfl

/-- What a statement is, apart from its parts: a let and its name, or an expression. -/
def CStatement.sort : CStatement → Option String
  | .letS name _ _ => some name
  | .expr _ => none

theorem foldr_inj {stmts stmts' : List CStatement} (hsort : stmts.map CStatement.sort = stmts'.map CStatement.sort)
    (result result' : CExpr) :
    (stmts.foldr foldStatement (result, [])).2.length = (stmts'.foldr foldStatement (result', [])).2.length ∧
      (stmts.foldr foldStatement (result, []) = stmts'.foldr foldStatement (result', []) ↔
        stmts = stmts' ∧ result = result') := by
  induction stmts generalizing stmts' with
  | nil =>
    match stmts', hsort with
    | [], _ => simp
  | cons stmt stmts ih =>
    match stmts', hsort with
    | stmt' :: stmts', hsort =>
      obtain ⟨hhead, htail⟩ := List.cons.inj hsort
      obtain ⟨hlength, heq⟩ := ih htail
      rw [foldr_cons, foldr_cons]
      match stmt, stmt', hhead with
      | .letS name ty value, .letS _ ty' value', hname =>
        obtain rfl := some.inj hname
        refine ⟨rfl, ?_⟩
        simp only [foldStatement, Prod.mk.injEq, CExpr.letE.injEq, true_and, and_true,
          flushPending_inj hlength, List.cons.injEq, CStatement.letS.injEq]
        rw [← Prod.ext_iff, heq]
        tauto
      | .expr e, .expr e', _ =>
        refine ⟨congrArg Nat.succ hlength, ?_⟩
        simp only [foldStatement, Prod.mk.injEq, List.cons.injEq, CStatement.expr.injEq]
        rw [and_assoc, ← heq, Prod.ext_iff]
        tauto

theorem foldBlock_inj {stmts stmts' : List CStatement}
    (hsort : stmts.map CStatement.sort = stmts'.map CStatement.sort) (result result' : CExpr) :
    foldBlock stmts result = foldBlock stmts' result' ↔ stmts = stmts' ∧ result = result' := by
  obtain ⟨hlength, heq⟩ := foldr_inj hsort result result'
  show flushPending _ _ = flushPending _ _ ↔ _
  rw [flushPending_inj hlength, ← heq, Prod.ext_iff]

section Statements

variable (folding : Bool)

theorem statementTo_letS (name : String) (ty : Option Syntax.TypeExpr) (value : Syntax.Expr) :
    statementTo display folding (.letS name ty value) =
      .letS name (ty.map (canonicalizeType display)) (exprTo display folding value) := by
  match ty with
  | none => simp [statementTo, canonicalizeStatement, CStatement.comesTo, exprTo]
  | some t => simp [statementTo, canonicalizeStatement, CStatement.comesTo, exprTo]

theorem statementTo_expr (e : Syntax.Expr) :
    statementTo display folding (.expr e) = .expr (exprTo display folding e) := by
  simp [statementTo, canonicalizeStatement, CStatement.comesTo, exprTo]

theorem blockTo_mk (statements : List Syntax.Statement) (result : Syntax.Expr) :
    blockTo display folding (.mk statements result) =
      foldBlock (statements.map (statementTo display folding)) (exprTo display folding result) := by
  unfold blockTo
  rw [canonicalizeBlock, comesTo_foldBlock, canonicalizeStatements_eq_map, List.map_map]
  rfl

end Statements

/-! ## Calls, pipes and records -/

section Calls

variable (folding : Bool)

/-- The constructor that a callee names, if it does. -/
def constructorOf : Syntax.Expr → Option String
  | .var name => if isConstructorName (unqualified name) then some (unqualified name) else none
  | _ => none

theorem canonicalizeExpr_call (callee : Syntax.Expr) (args : List Syntax.Expr) :
    canonicalizeExpr display (.call callee args) =
      match constructorOf callee with
      | some name => .constructor name (args.map (canonicalizeExpr display))
      | none => .call (canonicalizeExpr display callee) (args.map (canonicalizeExpr display)) := by
  match callee with
  | .var name =>
    by_cases hname : isConstructorName (unqualified name) = true
    · simp [canonicalizeExpr, constructorOf, hname, canonicalizeExprs_eq_map]
    · simp [canonicalizeExpr, constructorOf, hname, canonicalizeExprs_eq_map]
  | .lit _ | .block _ | .call _ _ | .pipe _ _ | .tryE _ | .field _ _ | .binOp _ _ _ | .unaryOp _ _
  | .ifE _ _ _ | .matchE _ _ | .recordLit _ | .tupleLit _ | .listLit _ | .constructor _ _
  | .lambda _ _ _ _ _ | .ascription _ _ =>
    simp [canonicalizeExpr, constructorOf, canonicalizeExprs_eq_map]

theorem exprTo_call (callee : Syntax.Expr) (args : List Syntax.Expr) :
    exprTo display folding (.call callee args) =
      match constructorOf callee with
      | some name => .constructor name (args.map (exprTo display folding))
      | none => .call (exprTo display folding callee) (args.map (exprTo display folding)) := by
  unfold exprTo
  rw [canonicalizeExpr_call]
  split
  · rw [comesTo_constructor, List.map_map]
    rfl
  · rw [comesTo_call, List.map_map]
    rfl

/-- The sort of an expression that a pipe looks at. -/
inductive Head
  | call
  | constructor
  | other

def headOf : CExpr → Head
  | .call _ _ => .call
  | .constructor _ _ => .constructor
  | _ => .other

theorem eq_call_of_headOf {e : CExpr} (h : headOf e = .call) : ∃ callee args, e = .call callee args := by
  unfold headOf at h
  split at h <;> first | exact ⟨_, _, rfl⟩ | exact nomatch h

theorem eq_constructor_of_headOf {e : CExpr} (h : headOf e = .constructor) :
    ∃ name args, e = .constructor name args := by
  unfold headOf at h
  split at h <;> first | exact ⟨_, _, rfl⟩ | exact nomatch h

theorem pipeInto_other {e : CExpr} (h : headOf e = .other) (left : CExpr) : pipeInto left e = .call e [left] := by
  unfold pipeInto
  split
  · exact nomatch h
  · exact nomatch h
  · rfl

/-- What a pipe comes to tells what both sides come to. -/
theorem pipeInto_inj {left left' right right' : CExpr} (hhead : headOf right' = headOf right) :
    comesTo folding (pipeInto left' right') = comesTo folding (pipeInto left right) ↔
      comesTo folding left' = comesTo folding left ∧ comesTo folding right' = comesTo folding right := by
  match hright : headOf right with
  | .call =>
    obtain ⟨callee, args, rfl⟩ := eq_call_of_headOf hright
    obtain ⟨callee', args', rfl⟩ := eq_call_of_headOf (hhead.trans hright)
    simp only [pipeInto, comesTo_call, map_cons, CExpr.call.injEq, List.cons.injEq]
    tauto
  | .constructor =>
    obtain ⟨name, args, rfl⟩ := eq_constructor_of_headOf hright
    obtain ⟨name', args', rfl⟩ := eq_constructor_of_headOf (hhead.trans hright)
    simp only [pipeInto, comesTo_constructor, map_cons, CExpr.constructor.injEq, List.cons.injEq]
    tauto
  | .other =>
    rw [pipeInto_other hright, pipeInto_other (hhead.trans hright)]
    simp only [comesTo_call, map_cons, map_nil, CExpr.call.injEq, List.cons.injEq, and_true]
    tauto

theorem tryMatch_inj {v v' : CExpr} : tryMatch v = tryMatch v' ↔ v = v' := by
  simp [tryMatch]

theorem exprTo_recordLit (fields : List (String × Syntax.Expr)) : exprTo display folding (.recordLit fields) =
      .recordLit (sortBy Prod.fst (fields.map (fieldTo display folding))) := by
  unfold exprTo
  rw [canonicalizeExpr, comesTo_recordLit, canonicalizeFields_eq_map, sortBy_map, List.map_map, sortBy_map]
  rfl

theorem exprTo_items (es : List Syntax.Expr) :
    (canonicalizeExprs display es).map (comesTo folding) = es.map (exprTo display folding) := by
  rw [canonicalizeExprs_eq_map, List.map_map]
  rfl

end Calls

/-! ## Matches -/

section Matches

variable (folding : Bool)

/-- An arm: the body folded where bodies are. -/
def armTo (arm : Syntax.Pattern × Syntax.Expr) : Pattern × CExpr :=
  Prod.map (canonicalizePattern display) (exprTo display folding) arm

theorem comesTo_arms (arms : List (Syntax.Pattern × Syntax.Expr)) :
    (canonicalizeArms display arms).map (fun arm => (arm.1, comesTo folding arm.2)) =
      arms.map (armTo display folding) := by
  rw [canonicalizeArms_eq_map, List.map_map]
  rfl

theorem exprTo_match (scrutinee : Syntax.Expr) (arms : List (Syntax.Pattern × Syntax.Expr)) :
    exprTo display folding (.matchE scrutinee arms) =
      match takenArm display folding scrutinee arms with
      | some arm => exprTo display folding arm.2
      | none => .matchE (exprTo display folding scrutinee) (arms.map (armTo display folding)) := by
  match folding with
  | false =>
    show canonicalizeExpr display _ = CExpr.matchE _ _
    rw [canonicalizeExpr, ← comesTo_arms]
    simp [comesTo_false, exprTo]
  | true =>
    show fold (canonicalizeExpr display _) = _
    rw [canonicalizeExpr, fold]
    unfold takenArm
    match hl : literalOf (canonicalizeExpr display scrutinee) with
    | none =>
      have hne : ∀ l, fold (canonicalizeExpr display scrutinee) ≠ .literal l := fun l hfold => by
        rw [fold_eq_literal_iff, hl] at hfold
        exact nomatch hfold
      rw [tryFold_of_ne hne, foldArms_eq_map]
      simp [exprTo, comesTo_true, ← comesTo_arms]
    | some l =>
      have hfold := (fold_eq_literal_iff (canonicalizeExpr display scrutinee) l).mpr hl
      rw [hfold, tryFold_literal, canonicalizeArms_eq_map, List.find?_map]
      simp only [if_true, bind_some]
      match hfind : arms.find? fun arm => patternMatchesLiteral (canonicalizePattern display arm.1) l with
      | some arm =>
        have hfind' : List.find? ((fun arm : Pattern × CExpr => patternMatchesLiteral arm.1 l) ∘ fun arm =>
          (canonicalizePattern display arm.1, canonicalizeExpr display arm.2)) arms = some arm := hfind
        rw [hfind', hfind]
        rfl
      | none =>
        have hfind' : List.find? ((fun arm : Pattern × CExpr => patternMatchesLiteral arm.1 l) ∘ fun arm =>
          (canonicalizePattern display arm.1, canonicalizeExpr display arm.2)) arms = none := hfind
        rw [hfind', hfind]
        simp only [map_none, foldArms_eq_map, List.map_map]
        rw [← hfold]
        rfl

theorem mem_of_takenArm {scrutinee : Syntax.Expr} {arms : List (Syntax.Pattern × Syntax.Expr)}
    {arm : Syntax.Pattern × Syntax.Expr} (htaken : takenArm display folding scrutinee arms = some arm) :
    arm ∈ arms := by
  unfold takenArm at htaken
  split at htaken
  · obtain ⟨l, -, hfind⟩ := bind_eq_some_iff.mp htaken
    exact List.mem_of_find?_eq_some hfind
  · exact nomatch htaken

theorem takenBlock_eq_some_iff {cond : Syntax.Expr} {thenBlock elseBlock b : Syntax.Block} :
    takenBlock display folding cond thenBlock elseBlock = some b ↔
      folding = true ∧ (literalOf (canonicalizeExpr display cond) = some (.bool true) ∧ thenBlock = b ∨
        literalOf (canonicalizeExpr display cond) = some (.bool false) ∧ elseBlock = b) := by
  unfold takenBlock
  split
  · rename_i hfolding
    rw [hfolding]
    split <;> simp_all
  · rename_i hfolding
    simp [hfolding]

/-- The branches of an `if`, canonicalized and not folded yet. -/
theorem canonicalizeExpr_if (cond : Syntax.Expr) (thenBlock elseBlock : Syntax.Block) :
    canonicalizeExpr display (.ifE cond thenBlock elseBlock) = .matchE (canonicalizeExpr display cond)
        [(.pLiteral (.bool true), canonicalizeBlock display thenBlock),
          (.pLiteral (.bool false), canonicalizeBlock display elseBlock)] := by
  rw [canonicalizeExpr]

/-- An `if` that is folded comes to a branch, and one that is not to a match. -/
theorem exprTo_if (cond : Syntax.Expr) (thenBlock elseBlock : Syntax.Block) :
    exprTo display folding (.ifE cond thenBlock elseBlock) =
      match takenBlock display folding cond thenBlock elseBlock with
      | some b => blockTo display folding b
      | none => .matchE (exprTo display folding cond)
          [(.pLiteral (.bool true), blockTo display folding thenBlock),
            (.pLiteral (.bool false), blockTo display folding elseBlock)] := by
  match folding with
  | false => exact canonicalizeExpr_if display cond thenBlock elseBlock
  | true =>
    show fold (canonicalizeExpr display _) = _
    rw [canonicalizeExpr_if, fold, foldArms_eq_map]
    unfold takenBlock
    match hl : literalOf (canonicalizeExpr display cond) with
    | none =>
      have hne : ∀ l, fold (canonicalizeExpr display cond) ≠ .literal l := fun l hfold => by
        rw [fold_eq_literal_iff, hl] at hfold
        exact nomatch hfold
      rw [tryFold_of_ne hne]
      rfl
    | some l =>
      have hfold := (fold_eq_literal_iff (canonicalizeExpr display cond) l).mpr hl
      have hexpr : exprTo display true cond = .literal l := hfold
      rw [hfold, hexpr]
      match l with
      | .bool true => rfl
      | .bool false => rfl
      | .int _ | .float _ | .str _ | .bytes _ | .unit => rfl

end Matches

end LexLang.Ast
