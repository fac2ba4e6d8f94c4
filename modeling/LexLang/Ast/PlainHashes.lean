/-
# LexLang.Ast.PlainHashes — a hash without collisions

What identities rely on (`Hashes`) can be had: a declaration is written as a tree of texts, the tree as
a number and the number as a text, and nothing is lost on the way.
-/
import LexLang.Ast.Identity
import Mathlib.Logic.Encodable.Basic
import Mathlib.Tactic.DeriveEncodable

namespace LexLang.Ast

open Function

/-! ## Trees -/

/-- A tree of numbers. -/
inductive Code
  | num (n : Nat)
  | pair (left right : Code)
  deriving Encodable

namespace Code

/-- Codes one after another. -/
def seq : List Code → Code
  | [] => num 0
  | code :: codes => pair code (seq codes)

/-- What kind of thing it is, and its parts. -/
def node (tag : Nat) (parts : List Code) : Code := pair (num tag) (seq parts)

theorem seq_inj : ∀ {codes codes' : List Code}, seq codes = seq codes' ↔ codes = codes'
  | [], [] => by simp
  | [], _ :: _ => by simp [seq]
  | _ :: _, [] => by simp [seq]
  | code :: codes, code' :: codes' => by simp [seq, seq_inj]

@[simp] theorem node_inj {tag tag' : Nat} {parts parts' : List Code} :
    node tag parts = node tag' parts' ↔ tag = tag' ∧ parts = parts' := by
  simp [node, seq_inj]

/-- The text of a tree. -/
def toText (code : Code) : String := String.ofList (List.replicate (Encodable.encode code) '1')

theorem toText_injective : Injective toText := by
  intro code code' h
  apply Encodable.encode_injective
  have hlength := congrArg String.length h
  simpa [toText] using hlength

/-- A text, letter by letter. -/
def text (s : String) : Code := seq (s.toList.map fun c => num c.toNat)

@[simp] theorem text_inj {s s' : String} : text s = text s' ↔ s = s' := by
  rw [text, text, seq_inj, List.map_inj_right, String.toList_inj]
  intro c c' h
  exact Char.toNat_inj.mp (num.inj h)

/-- Several texts. -/
def texts (ss : List String) : Code := seq (ss.map text)

@[simp] theorem texts_inj {ss ss' : List String} : texts ss = texts ss' ↔ ss = ss' := by
  rw [texts, texts, seq_inj, List.map_inj_right]
  exact fun _ _ h => text_inj.mp h

/-- A text or none. -/
def textOpt : Option String → Code
  | some s => node 0 [text s]
  | none => node 1 []

@[simp] theorem textOpt_inj {s s' : Option String} : textOpt s = textOpt s' ↔ s = s' := by
  cases s <;> cases s' <;> simp [textOpt]

/-- An integer. -/
def int : Int → Code
  | .ofNat n => node 0 [num n]
  | .negSucc n => node 1 [num n]

@[simp] theorem int_inj {i j : Int} : int i = int j ↔ i = j := by
  cases i <;> cases j <;> simp [int] <;> omega

end Code

open Code

/-! ## The syntax tree -/

def litCode : CLit → Code
  | .int value => node 0 [int value]
  | .float value => node 1 [text value]
  | .str value => node 2 [text value]
  | .bytes value => node 3 [text value]
  | .bool value => node 4 [num value.toNat]
  | .unit => node 5 []

@[simp] theorem litCode_inj {l l' : CLit} : litCode l = litCode l' ↔ l = l' := by
  cases l <;> cases l' <;> simp [litCode]
  next value value' => cases value <;> cases value' <;> simp

def effectArgCode : Option EffectArg → Code
  | none => node 0 []
  | some (.str value) => node 1 [text value]
  | some (.int value) => node 2 [int value]
  | some (.ident value) => node 3 [text value]

@[simp] theorem effectArgCode_inj {x y : Option EffectArg} : effectArgCode x = effectArgCode y ↔ x = y := by
  rcases x with _ | (_ | _ | _) <;> rcases y with _ | (_ | _ | _) <;> simp [effectArgCode]

def effectCode (effect : Effect) : Code := node 0 [text effect.name, effectArgCode effect.arg]

theorem effectCode_injective : Injective effectCode := by
  intro effect effect' h
  simp only [effectCode, node_inj, List.cons.injEq, text_inj, effectArgCode_inj, true_and, and_true] at h
  cases effect
  cases effect'
  simp_all

def effectsCode (effects : List Effect) : Code := seq (effects.map effectCode)

@[simp] theorem effectsCode_inj {effects effects' : List Effect} :
    effectsCode effects = effectsCode effects' ↔ effects = effects' := by
  rw [effectsCode, effectsCode, seq_inj, List.map_inj_right]
  exact fun _ _ h => effectCode_injective h

mutual

def patternCode : Pattern → Code
  | .pLiteral value => node 0 [litCode value]
  | .pVar name => node 1 [text name]
  | .pWild => node 2 []
  | .pConstructor name args => node 3 [text name, patternsCode args]
  | .pRecord fields => node 4 [patternFieldsCode fields]
  | .pTuple items => node 5 [patternsCode items]

def patternsCode : List Pattern → Code
  | [] => num 0
  | p :: ps => pair (patternCode p) (patternsCode ps)

def patternFieldsCode : List (String × Pattern) → Code
  | [] => num 0
  | (name, p) :: fields => pair (pair (text name) (patternCode p)) (patternFieldsCode fields)

end

mutual

theorem patternCode_inj : ∀ {p q : Pattern}, patternCode p = patternCode q → p = q
  | .pLiteral _, q, h | .pVar _, q, h | .pWild, q, h => by cases q <;> simp_all [patternCode]
  | .pConstructor name args, q, h => by
    cases q <;> simp [patternCode] at h
    rw [h.1, patternsCode_inj h.2]
  | .pRecord fields, q, h => by
    cases q <;> simp [patternCode] at h
    rw [patternFieldsCode_inj h]
  | .pTuple items, q, h => by
    cases q <;> simp [patternCode] at h
    rw [patternsCode_inj h]

theorem patternsCode_inj : ∀ {ps qs : List Pattern}, patternsCode ps = patternsCode qs → ps = qs
  | [], [], _ => rfl
  | [], _ :: _, h | _ :: _, [], h => by simp [patternsCode] at h
  | p :: ps, q :: qs, h => by
    simp only [patternsCode, pair.injEq] at h
    rw [patternCode_inj h.1, patternsCode_inj h.2]

theorem patternFieldsCode_inj : ∀ {ps qs : List (String × Pattern)},
    patternFieldsCode ps = patternFieldsCode qs → ps = qs
  | [], [], _ => rfl
  | [], _ :: _, h | _ :: _, [], h => by simp [patternFieldsCode] at h
  | (name, p) :: ps, (name', q) :: qs, h => by
    simp only [patternFieldsCode, pair.injEq, text_inj] at h
    rw [h.1.1, patternCode_inj h.1.2, patternFieldsCode_inj h.2]

end

mutual

def typeCode : TypeExpr → Code
  | .named name args => node 0 [text name, typesCode args]
  | .record fields => node 1 [typeFieldsCode fields]
  | .tuple items => node 2 [typesCode items]
  | .function params effects effectRowVar ret =>
    node 3 [typesCode params, effectsCode effects, textOpt effectRowVar, typeCode ret]
  | .union variants => node 4 [variantsCode variants]
  | .recordWithSpreads spreads fields => node 5 [texts spreads, typeFieldsCode fields]
  | .refined base binding predicate => node 6 [typeCode base, text binding, exprCode predicate]

def typesCode : List TypeExpr → Code
  | [] => num 0
  | ty :: tys => pair (typeCode ty) (typesCode tys)

def typeFieldsCode : List (String × TypeExpr) → Code
  | [] => num 0
  | (name, ty) :: fields => pair (pair (text name) (typeCode ty)) (typeFieldsCode fields)

def variantsCode : List (String × Option TypeExpr) → Code
  | [] => num 0
  | (name, none) :: variants => pair (pair (text name) (num 0)) (variantsCode variants)
  | (name, some payload) :: variants =>
    pair (pair (text name) (pair (num 1) (typeCode payload))) (variantsCode variants)

def exprCode : CExpr → Code
  | .literal value => node 0 [litCode value]
  | .var name => node 1 [text name]
  | .call callee args => node 2 [exprCode callee, exprsCode args]
  | .letE name none value body => node 3 [text name, exprCode value, exprCode body]
  | .letE name (some ty) value body => node 4 [text name, typeCode ty, exprCode value, exprCode body]
  | .matchE scrutinee arms => node 5 [exprCode scrutinee, armsCode arms]
  | .block statements result => node 6 [exprsCode statements, exprCode result]
  | .constructor name args => node 7 [text name, exprsCode args]
  | .recordLit fields => node 8 [exprFieldsCode fields]
  | .tupleLit items => node 9 [exprsCode items]
  | .listLit items => node 10 [exprsCode items]
  | .fieldAccess value field => node 11 [exprCode value, text field]
  | .lambda params returnType effects effectRowVar body =>
    node 12 [typeFieldsCode params, typeCode returnType, effectsCode effects,
      textOpt effectRowVar, exprCode body]
  | .binOp op lhs rhs => node 13 [text op, exprCode lhs, exprCode rhs]
  | .unaryOp op expr => node 14 [text op, exprCode expr]
  | .returnE value => node 15 [exprCode value]

def exprsCode : List CExpr → Code
  | [] => num 0
  | e :: es => pair (exprCode e) (exprsCode es)

def armsCode : List (Pattern × CExpr) → Code
  | [] => num 0
  | (p, e) :: arms => pair (pair (patternCode p) (exprCode e)) (armsCode arms)

def exprFieldsCode : List (String × CExpr) → Code
  | [] => num 0
  | (name, e) :: fields => pair (pair (text name) (exprCode e)) (exprFieldsCode fields)

end

mutual

theorem typeCode_inj : ∀ {a b : TypeExpr}, typeCode a = typeCode b → a = b
  | .named name args, b, h => by
    cases b <;> cases (node_inj.mp h).1
    simp [typeCode] at h
    rw [h.1, typesCode_inj h.2]
  | .record fields, b, h => by
    cases b <;> cases (node_inj.mp h).1
    simp [typeCode] at h
    rw [typeFieldsCode_inj h]
  | .tuple items, b, h => by
    cases b <;> cases (node_inj.mp h).1
    simp [typeCode] at h
    rw [typesCode_inj h]
  | .function params effects effectRowVar ret, b, h => by
    cases b <;> cases (node_inj.mp h).1
    simp [typeCode] at h
    rw [typesCode_inj h.1, h.2.1, h.2.2.1, typeCode_inj h.2.2.2]
  | .union variants, b, h => by
    cases b <;> cases (node_inj.mp h).1
    simp [typeCode] at h
    rw [variantsCode_inj h]
  | .recordWithSpreads spreads fields, b, h => by
    cases b <;> cases (node_inj.mp h).1
    simp [typeCode] at h
    rw [h.1, typeFieldsCode_inj h.2]
  | .refined base binding predicate, b, h => by
    cases b <;> cases (node_inj.mp h).1
    simp [typeCode] at h
    rw [typeCode_inj h.1, h.2.1, exprCode_inj h.2.2]
termination_by structural x => x

theorem typesCode_inj : ∀ {as bs : List TypeExpr}, typesCode as = typesCode bs → as = bs
  | [], [], _ => rfl
  | [], _ :: _, h | _ :: _, [], h => by simp [typesCode] at h
  | a :: as, b :: bs, h => by
    simp only [typesCode, pair.injEq] at h
    rw [typeCode_inj h.1, typesCode_inj h.2]
termination_by structural x => x

theorem typeFieldsCode_inj : ∀ {as bs : List (String × TypeExpr)},
    typeFieldsCode as = typeFieldsCode bs → as = bs
  | [], [], _ => rfl
  | [], _ :: _, h | _ :: _, [], h => by simp [typeFieldsCode] at h
  | (name, a) :: as, (name', b) :: bs, h => by
    simp only [typeFieldsCode, pair.injEq, text_inj] at h
    rw [h.1.1, typeCode_inj h.1.2, typeFieldsCode_inj h.2]
termination_by structural x => x

theorem variantsCode_inj : ∀ {as bs : List (String × Option TypeExpr)},
    variantsCode as = variantsCode bs → as = bs
  | [], [], _ => rfl
  | [], (_, none) :: _, h | [], (_, some _) :: _, h => by simp [variantsCode] at h
  | (_, none) :: _, [], h | (_, some _) :: _, [], h => by simp [variantsCode] at h
  | (name, none) :: as, (name', none) :: bs, h => by
    simp only [variantsCode, pair.injEq, text_inj, and_true] at h
    rw [h.1, variantsCode_inj h.2]
  | (_, none) :: _, (_, some _) :: _, h | (_, some _) :: _, (_, none) :: _, h => by
    simp [variantsCode] at h
  | (name, some a) :: as, (name', some b) :: bs, h => by
    simp only [variantsCode, pair.injEq, text_inj, true_and] at h
    rw [h.1.1, typeCode_inj h.1.2, variantsCode_inj h.2]
termination_by structural x => x

theorem exprCode_inj : ∀ {a b : CExpr}, exprCode a = exprCode b → a = b
  | .literal value, b, h => by
    fun_cases exprCode b <;> cases (node_inj.mp h).1
    simp [exprCode] at h
    rw [h]
  | .var name, b, h => by
    fun_cases exprCode b <;> cases (node_inj.mp h).1
    simp [exprCode] at h
    rw [h]
  | .call callee args, b, h => by
    fun_cases exprCode b <;> cases (node_inj.mp h).1
    simp [exprCode] at h
    rw [exprCode_inj h.1, exprsCode_inj h.2]
  | .letE name none value body, b, h => by
    fun_cases exprCode b <;> cases (node_inj.mp h).1
    simp [exprCode] at h
    rw [h.1, exprCode_inj h.2.1, exprCode_inj h.2.2]
  | .letE name (some ty) value body, b, h => by
    fun_cases exprCode b <;> cases (node_inj.mp h).1
    simp [exprCode] at h
    rw [h.1, typeCode_inj h.2.1, exprCode_inj h.2.2.1, exprCode_inj h.2.2.2]
  | .matchE scrutinee arms, b, h => by
    fun_cases exprCode b <;> cases (node_inj.mp h).1
    simp [exprCode] at h
    rw [exprCode_inj h.1, armsCode_inj h.2]
  | .block statements result, b, h => by
    fun_cases exprCode b <;> cases (node_inj.mp h).1
    simp [exprCode] at h
    rw [exprsCode_inj h.1, exprCode_inj h.2]
  | .constructor name args, b, h => by
    fun_cases exprCode b <;> cases (node_inj.mp h).1
    simp [exprCode] at h
    rw [h.1, exprsCode_inj h.2]
  | .recordLit fields, b, h => by
    fun_cases exprCode b <;> cases (node_inj.mp h).1
    simp [exprCode] at h
    rw [exprFieldsCode_inj h]
  | .tupleLit items, b, h | .listLit items, b, h => by
    fun_cases exprCode b <;> cases (node_inj.mp h).1
    simp [exprCode] at h
    rw [exprsCode_inj h]
  | .fieldAccess value field, b, h => by
    fun_cases exprCode b <;> cases (node_inj.mp h).1
    simp [exprCode] at h
    rw [exprCode_inj h.1, h.2]
  | .lambda params returnType effects effectRowVar body, b, h => by
    fun_cases exprCode b <;> cases (node_inj.mp h).1
    simp [exprCode] at h
    rw [typeFieldsCode_inj h.1, typeCode_inj h.2.1, h.2.2.1, h.2.2.2.1, exprCode_inj h.2.2.2.2]
  | .binOp op lhs rhs, b, h => by
    fun_cases exprCode b <;> cases (node_inj.mp h).1
    simp [exprCode] at h
    rw [h.1, exprCode_inj h.2.1, exprCode_inj h.2.2]
  | .unaryOp op expr, b, h => by
    fun_cases exprCode b <;> cases (node_inj.mp h).1
    simp [exprCode] at h
    rw [h.1, exprCode_inj h.2]
  | .returnE value, b, h => by
    fun_cases exprCode b <;> cases (node_inj.mp h).1
    simp [exprCode] at h
    rw [exprCode_inj h]
termination_by structural x => x

theorem exprsCode_inj : ∀ {as bs : List CExpr}, exprsCode as = exprsCode bs → as = bs
  | [], [], _ => rfl
  | [], _ :: _, h | _ :: _, [], h => by simp [exprsCode] at h
  | a :: as, b :: bs, h => by
    simp only [exprsCode, pair.injEq] at h
    rw [exprCode_inj h.1, exprsCode_inj h.2]
termination_by structural x => x

theorem armsCode_inj : ∀ {as bs : List (Pattern × CExpr)}, armsCode as = armsCode bs → as = bs
  | [], [], _ => rfl
  | [], _ :: _, h | _ :: _, [], h => by simp [armsCode] at h
  | (p, a) :: as, (q, b) :: bs, h => by
    simp only [armsCode, pair.injEq] at h
    rw [patternCode_inj h.1.1, exprCode_inj h.1.2, armsCode_inj h.2]
termination_by structural x => x

theorem exprFieldsCode_inj : ∀ {as bs : List (String × CExpr)},
    exprFieldsCode as = exprFieldsCode bs → as = bs
  | [], [], _ => rfl
  | [], _ :: _, h | _ :: _, [], h => by simp [exprFieldsCode] at h
  | (name, a) :: as, (name', b) :: bs, h => by
    simp only [exprFieldsCode, pair.injEq, text_inj] at h
    rw [h.1.1, exprCode_inj h.1.2, exprFieldsCode_inj h.2]
termination_by structural x => x

end

/-! ## Declarations -/

def examplesCode (examples : List Example) : Code :=
  seq (examples.map fun x => node 0 [exprsCode x.args, exprCode x.expected])

theorem examplesCode_inj {xs ys : List Example} (h : examplesCode xs = examplesCode ys) : xs = ys := by
  rw [examplesCode, examplesCode, seq_inj, List.map_inj_right] at h
  · exact h
  · rintro ⟨args, expected⟩ ⟨args', expected'⟩ hxy
    simp only [node_inj, List.cons.injEq, and_true, true_and] at hxy
    rw [exprsCode_inj hxy.1, exprCode_inj hxy.2]

def sigCode : SigContent → Code
  | .fn effects inputTypes outputType examples name =>
    node 0 [effectsCode effects, typesCode inputTypes, typeCode outputType,
      examplesCode examples, textOpt name]
  | .type params name => node 1 [texts params, textOpt name]

theorem sigCode_injective : Injective sigCode := by
  intro x y h
  cases x with
  | fn effects inputTypes outputType examples name =>
    cases y <;> simp [sigCode] at h
    rw [h.1, typesCode_inj h.2.1, typeCode_inj h.2.2.1, examplesCode_inj h.2.2.2.1, h.2.2.2.2]
  | type params name =>
    cases y <;> simp [sigCode] at h
    rw [h.1, h.2]

def stageCode : Stage → Code
  | .fnDecl decl =>
    node 0 [text decl.name, texts decl.typeParams, typeFieldsCode decl.params,
      effectsCode decl.effects, textOpt decl.effectRowVar, typeCode decl.returnType,
      exprCode decl.body, examplesCode decl.examples, texts decl.doc]
  | .typeDecl decl =>
    node 1 [text decl.name, texts decl.params, typeCode decl.definition, texts decl.doc]
  | .importDecl decl => node 2 [text decl.reference, text decl.importAlias]

theorem stageCode_injective : Injective stageCode := by
  intro x y h
  cases x with
  | fnDecl decl =>
    cases y <;> simp [stageCode] at h
    next decl' =>
      obtain ⟨hname, htypeParams, hparams, heffects, hrow, hreturn, hbody, hexamples, hdoc⟩ := h
      replace hparams := typeFieldsCode_inj hparams
      replace hreturn := typeCode_inj hreturn
      replace hbody := exprCode_inj hbody
      replace hexamples := examplesCode_inj hexamples
      cases decl
      cases decl'
      simp_all
  | typeDecl decl =>
    cases y <;> simp [stageCode] at h
    next decl' =>
      obtain ⟨hname, hparams, hdefinition, hdoc⟩ := h
      replace hdefinition := typeCode_inj hdefinition
      cases decl
      cases decl'
      simp_all
  | importDecl decl =>
    cases y <;> simp [stageCode] at h
    next decl' =>
      cases decl
      cases decl'
      simp_all

/-- **A hash without collisions**, which loses nothing of what is hashed. -/
def plainHashes : Hashes where
  sig content := (sigCode content).toText
  sig_injective := Code.toText_injective.comp sigCode_injective
  stage stage := (stageCode stage).toText
  stage_injective := Code.toText_injective.comp stageCode_injective
  both a b := (texts [a, b]).toText
  both_injective := by
    intro a b a' b' h
    have htexts := texts_inj.mp (Code.toText_injective h)
    simpa using htexts

end LexLang.Ast
