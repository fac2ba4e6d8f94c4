/-
# LexLang.Types.MatchedValues — the values that a pattern is tested on

What the values of a type are, as they lie in the machine, which of them a pattern accepts (the test that
`compile_pattern_test` emits), and which patterns `bind_pattern` lets stand at a type.
-/
import LexLang.Types.Exhaustive

namespace LexLang.Types

open LexLang.Ast (Pattern CLit)

/-- A record lists its fields in the order of its type. -/
inductive Val
  | literal (value : CLit)
  | tuple (items : List Val)
  | record (fields : List (String × Val))
  | variant (name : String) (args : List Val)
  -- lists, functions and what the host keeps
  | other (id : Nat)

/-! ## Which values a pattern accepts -/

mutual

def accepts : Pattern → Val → Bool
  | .pWild, _ => true
  | .pVar _, _ => true
  | .pLiteral value, .literal found => found = Compiler.CLit.encoded value
  | .pConstructor name args, .variant found parts => found = name && acceptsAll args parts
  -- a pattern without parts tests nothing
  | .pTuple [], _ => true
  | .pTuple items, .tuple parts => acceptsAll items parts
  | .pRecord [], _ => true
  | .pRecord fields, .record parts => acceptsFields fields parts
  | _, _ => false

/-- The patterns are tested on the first parts. -/
def acceptsAll : List Pattern → List Val → Bool
  | [], _ => true
  | p :: ps, v :: vs => accepts p v && acceptsAll ps vs
  | _ :: _, [] => false

def acceptsFields : List (String × Pattern) → List (String × Val) → Bool
  | [], _ => true
  | (name, p) :: fields, parts =>
    (match parts.lookup name with
      | some v => accepts p v
      | none => false) && acceptsFields fields parts

end

/-- Some row accepts the values. -/
def Covers (rows : List (List Pattern)) (vs : List Val) : Prop := ∃ row ∈ rows, acceptsAll row vs = true

/-! ## The values of a type -/

def litType : CLit → Ty
  | .int _ => .prim .int
  | .float _ => .prim .float
  | .str _ => .prim .str
  | .bytes _ => .prim .bytes
  | .bool _ => .prim .bool
  | .unit => .unit

def TypeDef.payload (td : TypeDef) (name : String) : Option Ty :=
  match td.kind with
  | .union variants => (variants.lookup name).join
  | _ => none

/-- The types of the arguments that a constructor with the payload is called with. -/
def Ty.arguments : Ty → List Ty
  | .tuple items => if items.length = 1 then [.tuple items] else items
  | payload => [payload]

/-- The types that the patterns in a constructor pattern are bound to, by their number. -/
def Ty.boundTo (count : Nat) (payload : Ty) : List Ty :=
  if count = 1 then [payload]
  else
    match payload with
    | .tuple items => items
    | _ => []

namespace Checker

variable (c : Checker)

/-- What a type comes down to when its aliases are unfolded, however many there are. -/
def Exposes (t t' : Ty) : Prop := ∃ n, c.unfold n (c.resolve t) = some t'

/-- No pattern looks into values of the type, and no literal is one. -/
def Unseen : Ty → Prop
  | .prim _ => False
  | t => c.classify t = .opaque_

/-- **The values of a type.** A constructor keeps its arguments one by one. Of a type that no pattern looks into, any
value may be one. -/
inductive Typed : Val → Ty → Prop
  | literal {t : Ty} (value : CLit) (exposed : c.Exposes t (litType value)) : Typed (.literal value) t
  | tuple {t : Ty} {ts : List Ty} {vs : List Val} (exposed : c.Exposes t (.tuple ts))
      (parts : List.Forall₂ Typed vs ts) : Typed (.tuple vs) t
  | record {t : Ty} {fields : List (String × Ty)} {vs : List Val} (exposed : c.Exposes t (.record fields))
      (parts : List.Forall₂ Typed vs (fields.map Prod.snd)) : Typed (.record ((fields.map Prod.fst).zip vs)) t
  | constant {t : Ty} {owner name : String} {targs : List Ty} {params : List String}
      {variants : List (String × Option Ty)} (exposed : c.Exposes t (.con owner targs))
      (declared : c.typeEnv.types owner = some ⟨params, .union variants⟩) (arity : params.length = targs.length)
      (mem : (name, none) ∈ variants) : Typed (.variant name []) t
  | variant {t payload : Ty} {owner name : String} {targs : List Ty} {params : List String}
      {variants : List (String × Option Ty)} {vs : List Val} (exposed : c.Exposes t (.con owner targs))
      (declared : c.typeEnv.types owner = some ⟨params, .union variants⟩) (arity : params.length = targs.length)
      (mem : (name, some payload) ∈ variants)
      (parts : List.Forall₂ Typed vs (payload.arguments.map (Ty.instantiate targs))) : Typed (.variant name vs) t
  | unseen {t t' : Ty} (v : Val) (exposed : c.Exposes t t') (unseen : c.Unseen t') : Typed v t

/-! ## Which patterns stand at a type -/

mutual

/-- What `bind_pattern` checks. -/
def WellTyped : Pattern → Ty → Prop
  | .pWild, _ => True
  | .pVar _, _ => True
  | .pLiteral value, t => c.Exposes t (litType value)
  | .pConstructor name args, t =>
    ∃ owner td targs, c.typeEnv.ctorToType name = some owner ∧ c.typeEnv.types owner = some td ∧
      td.params.length = targs.length ∧ c.Exposes t (.con owner targs) ∧
      match td.payload name with
      | none => args = []
      | some payload => WellTypedFirst args ((payload.boundTo args.length).map (Ty.instantiate targs))
  | .pRecord fields, t => ∃ fts, c.Exposes t (.record fts) ∧ WellTypedFields fields fts
  | .pTuple [], t => c.Exposes t .unit
  | .pTuple items, t => ∃ ts, c.Exposes t (.tuple ts) ∧ items.length = ts.length ∧ WellTypedFirst items ts

/-- As far as there are both patterns and types. -/
def WellTypedFirst : List Pattern → List Ty → Prop
  | p :: ps, t :: ts => WellTyped p t ∧ WellTypedFirst ps ts
  | _, _ => True

def WellTypedFields : List (String × Pattern) → List (String × Ty) → Prop
  | [], _ => True
  | (name, p) :: fields, fts => (∃ t, fts.lookup name = some t ∧ WellTyped p t) ∧ WellTypedFields fields fts

end

/-! ## Which patterns are tested as they are checked -/

/-- The number of arguments of a constructor. -/
def argCount (name : String) : Nat :=
  match ((c.typeEnv.ctorToType name).bind c.typeEnv.types).bind (TypeDef.payload · name) with
  | some payload => payload.arguments.length
  | none => 0

mutual

/-- Under a constructor there is one pattern an argument or none, or a wildcard alone. Where a record pattern names a
field again, it accepts all or is the same pattern. -/
def Plain : Pattern → Prop
  | .pConstructor name args =>
    (args = [] ∨ args.length = c.argCount name ∨ (∃ p, args = [p] ∧ isWild p = true ∧ 0 < c.argCount name)) ∧
      PlainAll args
  | .pRecord fields =>
    (∀ field ∈ fields, isWild field.2 = true ∨ fields.lookup field.1 = some field.2) ∧ PlainFields fields
  | .pTuple items => PlainAll items
  | _ => True

def PlainAll : List Pattern → Prop
  | [] => True
  | p :: ps => Plain p ∧ PlainAll ps

def PlainFields : List (String × Pattern) → Prop
  | [] => True
  | (_, p) :: fields => Plain p ∧ PlainFields fields

end

end Checker

end LexLang.Types
