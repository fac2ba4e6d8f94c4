/-
# LexLang.Types.Exhaustive — is a match exhaustive?

`lex-types/src/checker/exhaustive.rs`: the constructors of the type of a column, the specialisation of a pattern
matrix, and the search for values that no row accepts. What a witness is made of is a parameter: the source renders it
as text at once.
-/
import LexLang.Types.Ty
import LexLang.Compiler.Emit

namespace LexLang.Types

open LexLang.Ast (Pattern CLit)

/-! ## Declared types -/

inductive TypeDefKind
  | union (variants : List (String × Option Ty))
  | alias_ (inner : Ty)
  | opaque_

/-- In the body, the `i`-th parameter is the variable `i`. -/
structure TypeDef where
  params : List String
  kind : TypeDefKind

structure TypeEnv where
  types : String → Option TypeDef
  ctorToType : String → Option String

/-- The parameters of a declaration are replaced by the arguments. -/
def Ty.instantiate (args : List Ty) (t : Ty) : Ty := t.subst ⟨fun v => args.getD v (.var v), Subst.id.row⟩

/-- The variants and the record types of a declaration are maps. -/
def TypeDef.Proper (td : TypeDef) : Prop :=
  match td.kind with
  | .union variants => (variants.map Prod.fst).Nodup ∧ ∀ v ∈ variants, ∀ payload, v.2 = some payload → payload.Distinct
  | .alias_ inner => inner.Distinct
  | .opaque_ => True

/-- The unifier of the checker comes in through the solution that its bindings come down to. -/
structure Checker where
  typeEnv : TypeEnv
  solution : Subst
  settled : ∀ t : Ty, (t.subst solution).subst solution = t.subst solution
  distinct : ∀ v, (solution.ty v).Distinct
  proper : ∀ name td, typeEnv.types name = some td → td.Proper

/-! ## Signatures -/

inductive ProductKind
  | tuple
  | record
  deriving DecidableEq

inductive Signature
  | ctors (variants : List (String × Option Ty))
  | product (fields : List (String × Ty)) (kind : ProductKind)
  | never
  | opaque_

def maxMissingWitnesses : Nat := 8

def maxAliasUnfolds : Nat := 64

namespace Checker

variable (c : Checker)

def resolve (t : Ty) : Ty := t.subst c.solution

/-- What the type is an alias of. -/
def aliasOf : Ty → Option Ty
  | .con name args =>
    match c.typeEnv.types name with
    | some ⟨params, .alias_ inner⟩ => if params.length = args.length then some (inner.instantiate args) else none
    | _ => none
  | _ => none

/-- The loop of `signature_of`, with the number of aliases that may still be unfolded. -/
def unfold : Nat → Ty → Option Ty
  | 0, t => if (c.aliasOf t).isSome then none else some t
  | n + 1, t =>
    match c.aliasOf t with
    | some inner => unfold n (c.resolve inner)
    | none => some t

/-- The signature of a type that is no alias. -/
def classify : Ty → Signature
  | .con name args =>
    match c.typeEnv.types name with
    | some ⟨params, .union variants⟩ =>
      if params.length = args.length then .ctors (variants.map fun v => (v.1, v.2.map (Ty.instantiate args)))
      else .opaque_
    | _ => .opaque_
  | .never => .never
  | .prim .bool => .ctors [("true", none), ("false", none)]
  | .unit => .ctors [("()", none)]
  | .tuple items => .product (items.mapIdx fun i t => (toString i, t)) .tuple
  | .record fields => .product fields .record
  | _ => .opaque_

def signatureOf (t : Ty) : Signature :=
  match c.unfold maxAliasUnfolds (c.resolve t) with
  | some t => c.classify t
  | none => .opaque_

end Checker

/-! ## Specialisation -/

def isWild : Pattern → Bool
  | .pWild | .pVar _ => true
  | _ => false

def boolCtor (b : Bool) : String := if b then "true" else "false"

def headCtor : Pattern → Option String
  | .pConstructor name _ => some name
  | .pLiteral (.bool b) => some (boolCtor b)
  | .pLiteral .unit => some "()"
  | .pTuple [] => some "()"
  | _ => none

def ctorPayloadPattern : List Pattern → Pattern
  | [] => .pWild
  | [one] => one
  | many => .pTuple many

def specializeCtor (head : Pattern) (name : String) (hasPayload : Bool) : Option (List Pattern) :=
  if isWild head then some (if hasPayload then [.pWild] else [])
  else
    match head with
    | .pConstructor n args =>
      if n = name then some (if hasPayload then [ctorPayloadPattern args] else []) else none
    | .pLiteral (.bool b) => if name = boolCtor b then some [] else none
    | .pLiteral .unit => if name = "()" then some [] else none
    | .pTuple [] => if name = "()" then some [] else none
    | _ => none

def specializeProduct (head : Pattern) (fields : List (String × Ty)) (kind : ProductKind) : Option (List Pattern) :=
  if isWild head then some (fields.map fun _ => .pWild)
  else
    match kind, head with
    | .tuple, .pTuple items => if items.length = fields.length then some items else none
    | .record, .pRecord pfs => some (fields.map fun f => (pfs.lookup f.1).getD .pWild)
    | _, _ => none

/-- The rows whose head accepts anything, without the head. -/
def defaultRows (rows : List (List Pattern)) : List (List Pattern) :=
  rows.filterMap fun
    | p :: ps => if isWild p then some ps else none
    | [] => none

/-- The rows whose head is accepted, with what it is specialised to in its place. -/
def specialized (special : Pattern → Option (List Pattern)) (rows : List (List Pattern)) : List (List Pattern) :=
  rows.filterMap fun
    | p :: ps => (special p).map (· ++ ps)
    | [] => none

/-- The constructors that the heads name. -/
def present (rows : List (List Pattern)) : List String :=
  rows.filterMap fun
    | p :: _ => headCtor p
    | [] => none

/-! ## Witnesses -/

/-- What a witness is made of. -/
structure Render (W : Type) where
  any : W
  ctor : String → Option W → W
  tuple : List W → W
  record : List (String × W) → W

def renderCtor (name : String) (payload : Option String) : String :=
  match payload with
  | none => name
  | some p =>
    if 2 < p.utf8ByteSize ∧ p.startsWith "(" ∧ p.endsWith ")" then name ++ p else name ++ "(" ++ p ++ ")"

/-- Witnesses as the texts of patterns. -/
def text : Render String where
  any := "_"
  ctor := renderCtor
  tuple items := "(" ++ ", ".intercalate items ++ ")"
  record fields :=
    let shown := (fields.filter fun f => f.2 ≠ "_").map fun f => f.1 ++ ": " ++ f.2
    if shown.isEmpty then "\x7b .. \x7d" else "\x7b " ++ ", ".intercalate shown ++ " \x7d"

/-- The first columns of a witness row are put together to one. -/
def Render.product {W : Type} (r : Render W) (kind : ProductKind) (fields : List (String × Ty)) (row : List W) :
    List W :=
  let head := row.take fields.length
  (match kind with
    | .tuple => r.tuple head
    | .record => r.record ((fields.map Prod.fst).zip head)) :: row.drop fields.length

/-- The payload of a witness row, if there is one, goes into the constructor. -/
def Render.variant {W : Type} (r : Render W) (name : String) (payload : Option Ty) (row : List W) : List W :=
  let n := payload.toList.length
  r.ctor name (row.take n).head? :: row.drop n

/-- The witness rows of the variants that no head names. -/
def Render.missing {W : Type} (r : Render W) (missing : List (String × Option Ty)) (rows : List (List W)) :
    List (List W) :=
  (missing.flatMap fun v => rows.map fun w => r.ctor v.1 (v.2.map fun _ => r.any) :: w).take maxMissingWitnesses

namespace Checker

/-- The loop over the variants of a complete signature: the first one with a hole yields the witnesses. -/
def firstHole {W : Type} (search : List (List Pattern) → List Ty → Option (Option (List (List W)))) (r : Render W)
    (rows : List (List Pattern)) (rest : List Ty) :
    List (String × Option Ty) → Option (Option (List (List W)))
  | [] => some none
  | (name, payload) :: variants => do
    match ← search (specialized (fun p => specializeCtor p name payload.isSome) rows) (payload.toList ++ rest) with
    | some ws => some (some (ws.map (r.variant name payload)))
    | none => firstHole search r rows rest variants

/-- Inside: `none` when the rows cover every value of the types, or the witness rows. Outside: `none` when the fuel ran
out. -/
def missingPatterns {W : Type} (c : Checker) (r : Render W) :
    Nat → List (List Pattern) → List Ty → Option (Option (List (List W)))
  | 0, _, _ => none
  | _ + 1, rows, [] => some (if rows.isEmpty then some [[]] else none)
  | fuel + 1, rows, head :: rest =>
    match c.signatureOf head with
    | .never => some none
    | sig =>
      if rows.isEmpty then some (some [List.replicate (rest.length + 1) r.any])
      else
        match sig with
        | .never => some none
        | .opaque_ => do
          let ws ← c.missingPatterns r fuel (defaultRows rows) rest
          some (ws.map fun ws => ws.map fun w => r.any :: w)
        | .product fields kind => do
          let ws ←
            if rows.all fun row => row.head?.elim false isWild then do
              -- no row looks inside of the product
              let ws ← c.missingPatterns r fuel (defaultRows rows) rest
              some (ws.map fun ws => ws.map fun w => List.replicate fields.length r.any ++ w)
            else
              c.missingPatterns r fuel (specialized (fun p => specializeProduct p fields kind) rows)
                (fields.map Prod.snd ++ rest)
          some (ws.map fun ws => ws.map (r.product kind fields))
        | .ctors variants =>
          let missing := variants.filter fun v => v.1 ∉ present rows
          if missing.isEmpty then firstHole (c.missingPatterns r fuel) r rows rest variants
          else do
            let ws ← c.missingPatterns r fuel (defaultRows rows) rest
            some (ws.map (r.missing missing))

end Checker

end LexLang.Types
