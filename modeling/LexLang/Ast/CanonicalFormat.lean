/-
# LexLang.Ast.CanonicalFormat — programs as canonical bytes

The wire format of canonical programs (`lex-ast/src/canonical_format.rs`): a version byte, then the
canonical JSON of the declarations. What a declaration is as JSON is what `serde` derives for it: a tag
names the constructor, absent options and some empty lists are left out, comments are not written.

`canonicalBytes_iff` says that a program comes back from its bytes, comments apart, and when the JSON
printer tells two values apart as equality does.
-/
import LexLang.Ast.CanonJson
import LexLang.Ast.Identity

namespace LexLang.Ast

open LexLang.Json
open List

/-! ## As JSON -/

section Encode

/-- A field that is left out when absent. -/
def optField (key : String) (value : Option Value) : List (String × Value) :=
  match value with
  | some v => [(key, v)]
  | none => []

/-- A list that is left out when empty. -/
def listField (key : String) (values : List Value) : List (String × Value) :=
  if values.isEmpty then [] else [(key, .array values)]

/-- One constructor, under its tag. -/
def taggedValue (tag name : String) (fields : List (String × Value)) : Value :=
  .object ((tag, .string name) :: fields)

def stringValues (ss : List String) : Value := .array (ss.map .string)

def litValue : CLit → Value
  | .int value => taggedValue "kind" "Int" [("value", .number (.int value))]
  | .float value => taggedValue "kind" "Float" [("value", .string value)]
  | .str value => taggedValue "kind" "Str" [("value", .string value)]
  | .bytes value => taggedValue "kind" "Bytes" [("value", .string value)]
  | .bool value => taggedValue "kind" "Bool" [("value", .bool value)]
  | .unit => taggedValue "kind" "Unit" []

def effectArgValue : EffectArg → Value
  | .str value => taggedValue "kind" "Str" [("value", .string value)]
  | .int value => taggedValue "kind" "Int" [("value", .number (.int value))]
  | .ident value => taggedValue "kind" "Ident" [("value", .string value)]

def effectValue (effect : Effect) : Value :=
  .object (("name", .string effect.name) :: optField "arg" (effect.arg.map effectArgValue))

def effectValues (effects : List Effect) : Value := .array (effects.map effectValue)

mutual

def patternValue : Pattern → Value
  | .pLiteral value => taggedValue "node" "PLiteral" [("value", litValue value)]
  | .pVar name => taggedValue "node" "PVar" [("name", .string name)]
  | .pWild => taggedValue "node" "PWild" []
  | .pConstructor name args =>
    taggedValue "node" "PConstructor" [("name", .string name), ("args", .array (patternValues args))]
  | .pRecord fields => taggedValue "node" "PRecord" [("fields", .array (patternFieldValues fields))]
  | .pTuple items => taggedValue "node" "PTuple" [("items", .array (patternValues items))]

def patternValues : List Pattern → List Value
  | [] => []
  | p :: ps => patternValue p :: patternValues ps

def patternFieldValues : List (String × Pattern) → List Value
  | [] => []
  | (name, p) :: fields =>
    .object [("name", .string name), ("pattern", patternValue p)] :: patternFieldValues fields

end

mutual

def typeValue : TypeExpr → Value
  | .named name args =>
    taggedValue "node" "Named" [("name", .string name), ("args", .array (typeValues args))]
  | .record fields => taggedValue "node" "Record" [("fields", .array (typeFieldValues fields))]
  | .tuple items => taggedValue "node" "Tuple" [("items", .array (typeValues items))]
  | .function params effects effectRowVar ret =>
    taggedValue "node" "Function" ([("params", .array (typeValues params)),
      ("effects", effectValues effects)] ++ optField "effect_row_var" (effectRowVar.map .string) ++
      [("ret", typeValue ret)])
  | .union variants => taggedValue "node" "Union" [("variants", .array (variantValues variants))]
  | .recordWithSpreads spreads fields =>
    taggedValue "node" "RecordWithSpreads"
      (("spreads", stringValues spreads) :: listField "fields" (typeFieldValues fields))
  | .refined base binding predicate =>
    taggedValue "node" "Refined" [("base", typeValue base), ("binding", .string binding),
      ("predicate", exprValue predicate)]

def typeValues : List TypeExpr → List Value
  | [] => []
  | t :: ts => typeValue t :: typeValues ts

/-- Fields of records, and parameters: a name with its type. -/
def typeFieldValues : List (String × TypeExpr) → List Value
  | [] => []
  | (name, t) :: fields =>
    .object [("name", .string name), ("type", typeValue t)] :: typeFieldValues fields

def variantValues : List (String × Option TypeExpr) → List Value
  | [] => []
  | (name, none) :: variants => .object [("name", .string name)] :: variantValues variants
  | (name, some t) :: variants =>
    .object [("name", .string name), ("payload", typeValue t)] :: variantValues variants

def exprValue : CExpr → Value
  | .literal value => taggedValue "node" "Literal" [("value", litValue value)]
  | .var name => taggedValue "node" "Var" [("name", .string name)]
  | .call callee args =>
    taggedValue "node" "Call" [("callee", exprValue callee), ("args", .array (exprValues args))]
  | .letE name none value body =>
    taggedValue "node" "Let" [("name", .string name), ("ty", .null), ("value", exprValue value),
      ("body", exprValue body)]
  | .letE name (some ty) value body =>
    taggedValue "node" "Let" [("name", .string name), ("ty", typeValue ty),
      ("value", exprValue value), ("body", exprValue body)]
  | .matchE scrutinee arms =>
    taggedValue "node" "Match" [("scrutinee", exprValue scrutinee), ("arms", .array (armValues arms))]
  | .block statements result =>
    taggedValue "node" "Block" [("statements", .array (exprValues statements)),
      ("result", exprValue result)]
  | .constructor name args =>
    taggedValue "node" "Constructor" [("name", .string name), ("args", .array (exprValues args))]
  | .recordLit fields =>
    taggedValue "node" "RecordLit" [("fields", .array (recordFieldValues fields))]
  | .tupleLit items => taggedValue "node" "TupleLit" [("items", .array (exprValues items))]
  | .listLit items => taggedValue "node" "ListLit" [("items", .array (exprValues items))]
  | .fieldAccess value field =>
    taggedValue "node" "FieldAccess" [("value", exprValue value), ("field", .string field)]
  | .lambda params returnType effects effectRowVar body =>
    taggedValue "node" "Lambda" ([("params", .array (typeFieldValues params)),
      ("return_type", typeValue returnType), ("effects", effectValues effects)] ++
      optField "effect_row_var" (effectRowVar.map .string) ++ [("body", exprValue body)])
  | .binOp op lhs rhs =>
    taggedValue "node" "BinOp" [("op", .string op), ("lhs", exprValue lhs), ("rhs", exprValue rhs)]
  | .unaryOp op expr => taggedValue "node" "UnaryOp" [("op", .string op), ("expr", exprValue expr)]
  | .returnE value => taggedValue "node" "Return" [("value", exprValue value)]

def exprValues : List CExpr → List Value
  | [] => []
  | e :: es => exprValue e :: exprValues es

def armValues : List (Pattern × CExpr) → List Value
  | [] => []
  | (p, e) :: arms => .object [("pattern", patternValue p), ("body", exprValue e)] :: armValues arms

def recordFieldValues : List (String × CExpr) → List Value
  | [] => []
  | (name, e) :: fields =>
    .object [("name", .string name), ("value", exprValue e)] :: recordFieldValues fields

end

def exampleValue (ex : Example) : Value :=
  .object [("args", .array (exprValues ex.args)), ("expected", exprValue ex.expected)]

/-- **A declaration as JSON.** -/
def stageValue : Stage → Value
  | .fnDecl decl =>
    taggedValue "node" "FnDecl" ([("name", .string decl.name),
      ("type_params", stringValues decl.typeParams), ("params", .array (typeFieldValues decl.params)),
      ("effects", effectValues decl.effects)] ++
      optField "effect_row_var" (decl.effectRowVar.map .string) ++
      [("return_type", typeValue decl.returnType), ("body", exprValue decl.body)] ++
      listField "examples" (decl.examples.map exampleValue))
  | .typeDecl decl =>
    taggedValue "node" "TypeDecl" [("name", .string decl.name), ("params", stringValues decl.params),
      ("definition", typeValue decl.definition)]
  | .importDecl decl =>
    taggedValue "node" "Import" [("reference", .string decl.reference),
      ("alias", .string decl.importAlias)]

end Encode

/-! ## From JSON -/

/-- **What a value reads as**, in each of the types a program is made of. -/
structure Reading where
  isNull : Bool := false
  string : Option String := none
  int : Option Int := none
  bool : Option Bool := none
  items : Option (List Reading) := none
  lit : Option CLit := none
  effectArg : Option EffectArg := none
  effect : Option Effect := none
  pattern : Option Pattern := none
  patternField : Option (String × Pattern) := none
  type : Option TypeExpr := none
  typeField : Option (String × TypeExpr) := none
  variant : Option (String × Option TypeExpr) := none
  expr : Option CExpr := none
  arm : Option (Pattern × CExpr) := none
  recordField : Option (String × CExpr) := none
  ex : Option Example := none
  stage : Option Stage := none

namespace Reading

/-- The members of a map, as they read. -/
abbrev Members := String → Option Reading

section Decode

variable {α : Type} (members : Members)

/-- A field that has to be there. -/
def field (key : String) (as : Reading → Option α) : Option α := (members key).bind as

/-- An optional field: absent, null, or there. -/
def option (key : String) (as : Reading → Option α) : Option (Option α) :=
  match members key with
  | none => some none
  | some r => if r.isNull then some none else (as r).map some

/-- Every item of an array. -/
def list (as : Reading → Option α) (r : Reading) : Option (List α) := r.items.bind fun rs => rs.mapM as

/-- A list that is empty when it is not there. -/
def listOrEmpty (key : String) (as : Reading → Option α) : Option (List α) :=
  match members key with
  | none => some []
  | some r => r.list as

def litOf : Option CLit := do
  match ← field members "kind" string with
  | "Int" => return .int (← field members "value" int)
  | "Float" => return .float (← field members "value" string)
  | "Str" => return .str (← field members "value" string)
  | "Bytes" => return .bytes (← field members "value" string)
  | "Bool" => return .bool (← field members "value" bool)
  | "Unit" => return .unit
  | _ => none

def effectArgOf : Option EffectArg := do
  match ← field members "kind" string with
  | "Str" => return .str (← field members "value" string)
  | "Int" => return .int (← field members "value" int)
  | "Ident" => return .ident (← field members "value" string)
  | _ => none

def effectOf : Option Effect := do
  return ⟨← field members "name" string, ← option members "arg" effectArg⟩

def patternOf : Option Pattern := do
  match ← field members "node" string with
  | "PLiteral" => return .pLiteral (← field members "value" lit)
  | "PVar" => return .pVar (← field members "name" string)
  | "PWild" => return .pWild
  | "PConstructor" =>
    return .pConstructor (← field members "name" string) (← field members "args" (list pattern))
  | "PRecord" => return .pRecord (← field members "fields" (list patternField))
  | "PTuple" => return .pTuple (← field members "items" (list pattern))
  | _ => none

def patternFieldOf : Option (String × Pattern) := do
  return (← field members "name" string, ← field members "pattern" pattern)

def typeOf : Option TypeExpr := do
  match ← field members "node" string with
  | "Named" => return .named (← field members "name" string) (← field members "args" (list type))
  | "Record" => return .record (← field members "fields" (list typeField))
  | "Tuple" => return .tuple (← field members "items" (list type))
  | "Function" =>
    return .function (← field members "params" (list type)) (← field members "effects" (list effect))
      (← option members "effect_row_var" string) (← field members "ret" type)
  | "Union" => return .union (← field members "variants" (list variant))
  | "RecordWithSpreads" =>
    return .recordWithSpreads (← field members "spreads" (list string))
      (← listOrEmpty members "fields" typeField)
  | "Refined" =>
    return .refined (← field members "base" type) (← field members "binding" string)
      (← field members "predicate" expr)
  | _ => none

def typeFieldOf : Option (String × TypeExpr) := do
  return (← field members "name" string, ← field members "type" type)

def variantOf : Option (String × Option TypeExpr) := do
  return (← field members "name" string, ← option members "payload" type)

def exprOf : Option CExpr := do
  match ← field members "node" string with
  | "Literal" => return .literal (← field members "value" lit)
  | "Var" => return .var (← field members "name" string)
  | "Call" => return .call (← field members "callee" expr) (← field members "args" (list expr))
  | "Let" =>
    return .letE (← field members "name" string) (← option members "ty" type)
      (← field members "value" expr) (← field members "body" expr)
  | "Match" => return .matchE (← field members "scrutinee" expr) (← field members "arms" (list arm))
  | "Block" =>
    return .block (← field members "statements" (list expr)) (← field members "result" expr)
  | "Constructor" =>
    return .constructor (← field members "name" string) (← field members "args" (list expr))
  | "RecordLit" => return .recordLit (← field members "fields" (list recordField))
  | "TupleLit" => return .tupleLit (← field members "items" (list expr))
  | "ListLit" => return .listLit (← field members "items" (list expr))
  | "FieldAccess" =>
    return .fieldAccess (← field members "value" expr) (← field members "field" string)
  | "Lambda" =>
    return .lambda (← field members "params" (list typeField)) (← field members "return_type" type)
      (← field members "effects" (list effect)) (← option members "effect_row_var" string)
      (← field members "body" expr)
  | "BinOp" =>
    return .binOp (← field members "op" string) (← field members "lhs" expr)
      (← field members "rhs" expr)
  | "UnaryOp" => return .unaryOp (← field members "op" string) (← field members "expr" expr)
  | "Return" => return .returnE (← field members "value" expr)
  | _ => none

def armOf : Option (Pattern × CExpr) := do
  return (← field members "pattern" pattern, ← field members "body" expr)

def recordFieldOf : Option (String × CExpr) := do
  return (← field members "name" string, ← field members "value" expr)

def exampleOf : Option Example := do
  return ⟨← field members "args" (list expr), ← field members "expected" expr⟩

/-- A declaration; its comments are not there. -/
def stageOf : Option Stage := do
  match ← field members "node" string with
  | "FnDecl" =>
    return .fnDecl
      { name := ← field members "name" string
        typeParams := ← field members "type_params" (list string)
        params := ← field members "params" (list typeField)
        effects := ← field members "effects" (list effect)
        effectRowVar := ← option members "effect_row_var" string
        returnType := ← field members "return_type" type
        body := ← field members "body" expr
        examples := ← listOrEmpty members "examples" ex
        doc := [] }
  | "TypeDecl" =>
    return .typeDecl ⟨← field members "name" string, ← field members "params" (list string),
      ← field members "definition" type, []⟩
  | "Import" =>
    return .importDecl ⟨← field members "reference" string, ← field members "alias" string⟩
  | _ => none

/-- A map, in every type that is written as one. -/
def ofMembers : Reading where
  lit := litOf members
  effectArg := effectArgOf members
  effect := effectOf members
  pattern := patternOf members
  patternField := patternFieldOf members
  type := typeOf members
  typeField := typeFieldOf members
  variant := variantOf members
  expr := exprOf members
  arm := armOf members
  recordField := recordFieldOf members
  ex := exampleOf members
  stage := stageOf members

end Decode

mutual

/-- Read a value from its parts. -/
def read : Value → Reading
  | .null => { isNull := true }
  | .bool value => { bool := some value }
  | .number (.int value) => { int := some value }
  | .number (.float _) => {}
  | .string s => { string := some s }
  | .array items => { items := some (readAll items) }
  | .object map => ofMembers fun key => (readMembers map).lookup key

def readAll : List Value → List Reading
  | [] => []
  | v :: vs => read v :: readAll vs

def readMembers : List (String × Value) → List (String × Reading)
  | [] => []
  | (key, v) :: map => (key, read v) :: readMembers map

end

end Reading

/-! ## Bytes -/

/-- The version of the format. -/
def canonicalVersion : UInt8 := 1

inductive DecodeError
  | empty
  | unsupportedVersion (found supported : UInt8)
  | notUtf8
  | deserialize
  deriving DecidableEq

/-- **The JSON reader**, as far as the format relies on it: it gives back what was written. -/
structure JsonReader (floats : FloatText) where
  fromStr : String → Option Value
  fromStr_toCanonicalString : ∀ v, fromStr (toCanonicalString floats v) = some v.sortKeys

/-- A program as JSON. -/
def programValue (stages : List Stage) : Value := .array (stages.map stageValue)

section Bytes

variable {floats : FloatText}

/-- **Encode a program**: the version, then the canonical text. -/
def encodeProgram (floats : FloatText) (stages : List Stage) : List UInt8 :=
  canonicalVersion :: (toCanonicalString floats (programValue stages)).toUTF8.data.toList

/-- **Decode a program**; the version is checked first. -/
def decodeProgram (reader : JsonReader floats) (bytes : List UInt8) : Except DecodeError (List Stage) :=
  match bytes with
  | [] => .error .empty
  | version :: payload =>
    if version ≠ canonicalVersion then .error (.unsupportedVersion version canonicalVersion)
    else
      match String.fromUTF8? ⟨payload.toArray⟩ with
      | none => .error .notUtf8
      | some text =>
        match (reader.fromStr text).bind fun v => (Reading.read v).list Reading.stage with
        | none => .error .deserialize
        | some stages => .ok stages

end Bytes

/-! ## The round trip -/

namespace Reading

/-- How a value reads once its keys are in order. -/
def back (v : Value) : Reading := read v.sortKeys

theorem readAll_eq_map (vs : List Value) : readAll vs = vs.map read := by
  induction vs with
  | nil => rfl
  | cons v vs ih => rw [readAll, ih, map_cons]

theorem readMembers_eq_map (map : List (String × Value)) :
    readMembers map = map.map fun field => (field.1, read field.2) := by
  induction map with
  | nil => rfl
  | cons field map ih => rw [readMembers, ih, map_cons]

/-- A map reads by its keys, in whatever order they are. -/
theorem back_object {map : List (String × Value)} (h : (map.map Prod.fst).Nodup) :
    back (.object map) = ofMembers fun key => (map.map fun field => (field.1, back field.2)).lookup key := by
  unfold back
  rw [Value.sortKeys, Value.sortKeysFields_eq_map, read, readMembers_eq_map, mergeSort_map, map_map]
  congr 1
  funext key
  have hsort := mergeSort_map (fun v => read v.sortKeys) map
  refine (congrArg (List.lookup key) hsort.symm).trans (lookup_mergeSort ?_ key)
  rw [map_map]
  exact h

theorem back_array (items : List Value) : back (.array items) = { items := some (items.map back) } := by
  unfold back
  rw [Value.sortKeys, Value.sortKeysAll_eq_map, read, readAll_eq_map, map_map]
  rfl

@[simp] theorem back_string (s : String) : back (.string s) = { string := some s } := rfl

@[simp] theorem back_int (i : Int) : back (.number (.int i)) = { int := some i } := rfl

@[simp] theorem back_bool (b : Bool) : back (.bool b) = { bool := some b } := rfl

@[simp] theorem back_null : back .null = { isNull := true } := rfl

section Lists

variable {α : Type} {as : Reading → Option α}

theorem list_back_nil : (back (.array [])).list as = some [] := rfl

theorem list_back_cons {v : Value} {vs : List Value} {x : α} {xs : List α}
    (h : as (back v) = some x) (hs : (back (.array vs)).list as = some xs) :
    (back (.array (v :: vs))).list as = some (x :: xs) := by
  rw [back_array] at hs ⊢
  show ((v :: vs).map back).mapM as = some (x :: xs)
  replace hs : (vs.map back).mapM as = some xs := hs
  rw [map_cons, mapM_cons, h, hs]
  rfl

theorem list_back_map {write : α → Value} {xs : List α} (h : ∀ x ∈ xs, as (back (write x)) = some x) :
    (back (.array (xs.map write))).list as = some xs := by
  induction xs with
  | nil => exact list_back_nil
  | cons x xs ih =>
    exact list_back_cons (h x mem_cons_self) (ih fun y hy => h y (mem_cons_of_mem x hy))

end Lists

/-! ### Leaves -/

attribute [local simp] field option listOrEmpty optField List.lookup_cons

@[simp] theorem lit_back (l : CLit) : (back (litValue l)).lit = some l := by
  cases l
  all_goals
    unfold litValue taggedValue
    rw [back_object (by simp)]
    simp [ofMembers, litOf]

@[simp] theorem strings_back (ss : List String) : (back (stringValues ss)).list string = some ss :=
  list_back_map fun _ _ => rfl

@[simp] theorem effectArg_back (arg : EffectArg) : (back (effectArgValue arg)).effectArg = some arg := by
  cases arg
  all_goals
    unfold effectArgValue taggedValue
    rw [back_object (by simp)]
    simp [ofMembers, effectArgOf]

@[simp] theorem isNull_effectArgValue (arg : EffectArg) : (back (effectArgValue arg)).isNull = false := by
  cases arg
  all_goals
    unfold effectArgValue taggedValue
    rw [back_object (by simp)]
    rfl

theorem effect_back (effect : Effect) : (back (effectValue effect)).effect = some effect := by
  obtain ⟨name, arg⟩ := effect
  cases arg
  all_goals
    unfold effectValue optField
    rw [back_object (by simp)]
    simp [ofMembers, effectOf]

@[simp] theorem effects_back (effects : List Effect) : (back (effectValues effects)).list effect = some effects :=
  list_back_map fun e _ => effect_back e

/-! ### Patterns -/

mutual

@[simp] theorem pattern_back : ∀ p : Pattern, (back (patternValue p)).pattern = some p
  | .pLiteral _ | .pVar _ | .pWild => by
    rw [patternValue, taggedValue, back_object (by simp)]
    simp [ofMembers, patternOf]
  | .pConstructor name args => by
    have hargs := patterns_back args
    rw [patternValue, taggedValue, back_object (by simp)]
    simp [ofMembers, patternOf, hargs]
  | .pRecord fields => by
    have hfields := patternFields_back fields
    rw [patternValue, taggedValue, back_object (by simp)]
    simp [ofMembers, patternOf, hfields]
  | .pTuple items => by
    have hitems := patterns_back items
    rw [patternValue, taggedValue, back_object (by simp)]
    simp [ofMembers, patternOf, hitems]

theorem patterns_back : ∀ ps : List Pattern, (back (.array (patternValues ps))).list pattern = some ps
  | [] => list_back_nil
  | p :: ps => list_back_cons (pattern_back p) (patterns_back ps)

theorem patternFields_back : ∀ fields : List (String × Pattern),
    (back (.array (patternFieldValues fields))).list patternField = some fields
  | [] => list_back_nil
  | (name, p) :: fields => by
    have hp := pattern_back p
    refine list_back_cons ?_ (patternFields_back fields)
    rw [back_object (by simp)]
    simp [ofMembers, patternFieldOf, hp]

end

/-! ### Types and expressions -/

@[simp] theorem isNull_typeValue (t : TypeExpr) : (back (typeValue t)).isNull = false := by
  cases t with
  | function params effects effectRowVar ret =>
    cases effectRowVar
    all_goals
      rw [typeValue, taggedValue, back_object (by simp)]
      rfl
  | recordWithSpreads spreads fields =>
    rw [typeValue, taggedValue, back_object]
    · rfl
    · unfold listField
      split <;> simp
  | _ =>
    rw [typeValue, taggedValue, back_object (by simp)]
    rfl

theorem bind_tag {β : Type} {members : String → Option Reading} {tag : String} (f : String → Option β)
    (h : field members "node" string = some tag) : field members "node" string >>= f = f tag := by
  rw [h]
  rfl

mutual

@[simp] theorem type_back : ∀ t : TypeExpr, (back (typeValue t)).type = some t
  | .named name args => by
    have hargs := types_back args
    rw [typeValue, taggedValue, back_object (by simp)]
    refine (bind_tag _ rfl).trans ?_
    simp [hargs]
  | .record fields => by
    have hfields := typeFields_back fields
    rw [typeValue, taggedValue, back_object (by simp)]
    refine (bind_tag _ rfl).trans ?_
    simp [hfields]
  | .tuple items => by
    have hitems := types_back items
    rw [typeValue, taggedValue, back_object (by simp)]
    refine (bind_tag _ rfl).trans ?_
    simp [hitems]
  | .function params effects none ret | .function params effects (some _) ret => by
    have hparams := types_back params
    have hret := type_back ret
    rw [typeValue, taggedValue, back_object (by simp)]
    refine (bind_tag _ rfl).trans ?_
    simp [hparams, hret]
  | .union variants => by
    have hvariants := variants_back variants
    rw [typeValue, taggedValue, back_object (by simp)]
    refine (bind_tag _ rfl).trans ?_
    simp [hvariants]
  | .recordWithSpreads spreads fields => by
    have hfields := typeFields_back fields
    cases fields with
    | nil =>
      rw [typeValue, taggedValue, back_object (by simp [listField, typeFieldValues])]
      refine (bind_tag _ rfl).trans ?_
      simp [listField, typeFieldValues]
    | cons first fields =>
      have hlist : listField "fields" (typeFieldValues (first :: fields)) =
          [("fields", .array (typeFieldValues (first :: fields)))] := rfl
      rw [typeValue, taggedValue, hlist, back_object (by simp)]
      refine (bind_tag _ rfl).trans ?_
      simp [hfields]
  | .refined base binding predicate => by
    have hbase := type_back base
    have hpredicate := expr_back predicate
    rw [typeValue, taggedValue, back_object (by simp)]
    refine (bind_tag _ rfl).trans ?_
    simp [hbase, hpredicate]

theorem types_back : ∀ ts : List TypeExpr, (back (.array (typeValues ts))).list type = some ts
  | [] => list_back_nil
  | t :: ts => list_back_cons (type_back t) (types_back ts)

theorem typeFields_back : ∀ fields : List (String × TypeExpr),
    (back (.array (typeFieldValues fields))).list typeField = some fields
  | [] => list_back_nil
  | (name, t) :: fields => by
    have ht := type_back t
    refine list_back_cons ?_ (typeFields_back fields)
    rw [back_object (by simp)]
    simp [ofMembers, typeFieldOf, ht]

theorem variants_back : ∀ variants : List (String × Option TypeExpr),
    (back (.array (variantValues variants))).list variant = some variants
  | [] => list_back_nil
  | (name, none) :: variants => by
    refine list_back_cons ?_ (variants_back variants)
    rw [back_object (by simp)]
    simp [ofMembers, variantOf]
  | (name, some t) :: variants => by
    have ht := type_back t
    refine list_back_cons ?_ (variants_back variants)
    rw [back_object (by simp)]
    simp [ofMembers, variantOf, ht]

@[simp] theorem expr_back : ∀ e : CExpr, (back (exprValue e)).expr = some e
  | .literal _ | .var _ => by
    rw [exprValue, taggedValue, back_object (by simp)]
    refine (bind_tag _ rfl).trans ?_
    simp
  | .call callee args => by
    have hcallee := expr_back callee
    have hargs := exprs_back args
    rw [exprValue, taggedValue, back_object (by simp)]
    refine (bind_tag _ rfl).trans ?_
    simp [hcallee, hargs]
  | .letE name none value body => by
    have hvalue := expr_back value
    have hbody := expr_back body
    rw [exprValue, taggedValue, back_object (by simp)]
    refine (bind_tag _ rfl).trans ?_
    simp [hvalue, hbody]
  | .letE name (some ty) value body => by
    have hty := type_back ty
    have hvalue := expr_back value
    have hbody := expr_back body
    rw [exprValue, taggedValue, back_object (by simp)]
    refine (bind_tag _ rfl).trans ?_
    simp [hty, hvalue, hbody]
  | .matchE scrutinee arms => by
    have hscrutinee := expr_back scrutinee
    have harms := arms_back arms
    rw [exprValue, taggedValue, back_object (by simp)]
    refine (bind_tag _ rfl).trans ?_
    simp [hscrutinee, harms]
  | .block statements result => by
    have hstatements := exprs_back statements
    have hresult := expr_back result
    rw [exprValue, taggedValue, back_object (by simp)]
    refine (bind_tag _ rfl).trans ?_
    simp [hstatements, hresult]
  | .constructor name args => by
    have hargs := exprs_back args
    rw [exprValue, taggedValue, back_object (by simp)]
    refine (bind_tag _ rfl).trans ?_
    simp [hargs]
  | .recordLit fields => by
    have hfields := recordFields_back fields
    rw [exprValue, taggedValue, back_object (by simp)]
    refine (bind_tag _ rfl).trans ?_
    simp [hfields]
  | .tupleLit items | .listLit items => by
    have hitems := exprs_back items
    rw [exprValue, taggedValue, back_object (by simp)]
    refine (bind_tag _ rfl).trans ?_
    simp [hitems]
  | .fieldAccess value _ | .returnE value => by
    have hvalue := expr_back value
    rw [exprValue, taggedValue, back_object (by simp)]
    refine (bind_tag _ rfl).trans ?_
    simp [hvalue]
  | .lambda params returnType effects none body | .lambda params returnType effects (some _) body => by
    have hparams := typeFields_back params
    have hreturn := type_back returnType
    have hbody := expr_back body
    rw [exprValue, taggedValue, back_object (by simp)]
    refine (bind_tag _ rfl).trans ?_
    simp [hparams, hreturn, hbody]
  | .binOp op lhs rhs => by
    have hlhs := expr_back lhs
    have hrhs := expr_back rhs
    rw [exprValue, taggedValue, back_object (by simp)]
    refine (bind_tag _ rfl).trans ?_
    simp [hlhs, hrhs]
  | .unaryOp op e => by
    have he := expr_back e
    rw [exprValue, taggedValue, back_object (by simp)]
    refine (bind_tag _ rfl).trans ?_
    simp [he]

theorem exprs_back : ∀ es : List CExpr, (back (.array (exprValues es))).list expr = some es
  | [] => list_back_nil
  | e :: es => list_back_cons (expr_back e) (exprs_back es)

theorem arms_back : ∀ arms : List (Pattern × CExpr), (back (.array (armValues arms))).list arm = some arms
  | [] => list_back_nil
  | (p, e) :: arms => by
    have he := expr_back e
    refine list_back_cons ?_ (arms_back arms)
    rw [back_object (by simp)]
    simp [ofMembers, armOf, he]

theorem recordFields_back : ∀ fields : List (String × CExpr),
    (back (.array (recordFieldValues fields))).list recordField = some fields
  | [] => list_back_nil
  | (name, e) :: fields => by
    have he := expr_back e
    refine list_back_cons ?_ (recordFields_back fields)
    rw [back_object (by simp)]
    simp [ofMembers, recordFieldOf, he]

end

/-! ### Declarations -/

theorem example_back (e : Example) : (back (exampleValue e)).ex = some e := by
  have hargs := exprs_back e.args
  rw [exampleValue, back_object (by simp)]
  simp [ofMembers, exampleOf, hargs]

/-- **A declaration reads back**, but for its comments. -/
theorem stage_back (stage : Stage) : (back (stageValue stage)).stage = some stage.content := by
  cases stage with
  | fnDecl decl =>
    obtain ⟨name, typeParams, params, effects, effectRowVar, returnType, body, examples, doc⟩ := decl
    have hparams := typeFields_back params
    have hexamples : (back (.array (examples.map exampleValue))).list ex = some examples :=
      list_back_map fun e _ => example_back e
    have hlist : listField "examples" (examples.map exampleValue) = [] ∧ examples = [] ∨
        listField "examples" (examples.map exampleValue) =
          [("examples", .array (examples.map exampleValue))] := by
      cases examples with
      | nil => exact .inl ⟨rfl, rfl⟩
      | cons e examples => exact .inr rfl
    rw [stageValue, taggedValue]
    rcases hlist with ⟨hlist, rfl⟩ | hlist
    all_goals
      simp only [hlist]
      cases effectRowVar
      all_goals
        rw [back_object (by simp)]
        refine (bind_tag _ rfl).trans ?_
        simp [hparams, hexamples, Stage.content]
  | typeDecl decl | importDecl decl =>
    rw [stageValue, taggedValue, back_object (by simp)]
    refine (bind_tag _ rfl).trans ?_
    simp [Stage.content]

end Reading

section RoundTrip

variable {floats : FloatText} (reader : JsonReader floats)

theorem stages_back (stages : List Stage) :
    (Reading.back (programValue stages)).list Reading.stage = some (stages.map Stage.content) := by
  induction stages with
  | nil => rfl
  | cons stage stages ih => exact Reading.list_back_cons (Reading.stage_back stage) ih

theorem fromUTF8?_toUTF8 (s : String) : String.fromUTF8? ⟨s.toUTF8.data.toList.toArray⟩ = some s := by
  show String.fromUTF8? s.toUTF8 = some s
  exact dif_pos s.isValidUTF8

/-- **A program comes back from its bytes**, but for its comments. -/
theorem decodeProgram_encodeProgram (stages : List Stage) :
    decodeProgram reader (encodeProgram floats stages) = .ok (stages.map Stage.content) := by
  unfold decodeProgram encodeProgram
  simp only [ne_eq, not_true_eq_false, if_false, fromUTF8?_toUTF8, reader.fromStr_toCanonicalString, Option.bind_some]
  rw [show Reading.read (programValue stages).sortKeys = Reading.back (programValue stages) from rfl, stages_back]

/-- The reader of canonical texts. -/
def canonicalReader (floats : FloatText) : JsonReader floats where
  fromStr := readCanonical floats
  fromStr_toCanonicalString := readCanonical_toCanonicalString

end RoundTrip

/-! ## What canonical bytes determine -/

/-- **When canonical bytes determine what they stand for.** A program comes back from its bytes, but for
its comments. Two JSON values have one text exactly if they are equal, except for equal values that are
not identical: where a zero stands in one and a negative zero in the other. -/
theorem canonicalBytes_iff (floats : FloatText) (reader : JsonReader floats) :
    (∀ stages, decodeProgram reader (encodeProgram floats stages) = .ok (stages.map Stage.content)) ∧
      ∀ v w, ((toCanonicalString floats v = toCanonicalString floats w ↔ v.same w = true) ↔
        (v.same w = true → v.Identical w)) :=
  ⟨decodeProgram_encodeProgram reader, fun _ _ => toCanonicalString_eq_iff_same⟩

/-- **Equal values with two texts**: a zero and a negative zero. -/
theorem zeros_written_apart : ¬ ∀ (floats : FloatText) (reader : JsonReader floats),
      (∀ stages, decodeProgram reader (encodeProgram floats stages) = .ok (stages.map Stage.content)) ∧
        ∀ v w, toCanonicalString floats v = toCanonicalString floats w ↔ v.same w = true := by
  intro h
  have hzeros := (h plainFloats (canonicalReader plainFloats)).2 (.number (.float .zero))
    (.number (.float .negZero))
  have htexts := toCanonicalString_eq_iff.mp (hzeros.mpr (by decide))
  cases htexts

end LexLang.Ast
