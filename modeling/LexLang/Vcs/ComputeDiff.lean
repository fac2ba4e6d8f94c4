/-
# LexLang.Vcs.ComputeDiff — the diff of two programs, declaration by declaration

The diff a publish works from (`lex-vcs/src/compute_diff.rs`): functions are removed, added, renamed
when their hashes without the name agree, or modified; types are removed, added or modified, and a
type whose signature changed is removed and added. Every entry carries the sig id of its old side.

How Rust's `Debug` prints a string is a parameter: it is part of an effect's label.
-/
import LexLang.Ast.Identity
import LexLang.Vcs.Operation

namespace LexLang.Vcs

open LexLang.Ast
open Std

/-! ## The report -/

/-- A declaration added, or one removed with its old sig id. -/
structure AddRemove where
  name : String
  signature : String
  oldSigId : Option SigId

/-- A function under a new name. -/
structure Renamed where
  fromName : String
  toName : String
  signature : String
  oldSigId : SigId

/-- The effects before and after, and what came and went. -/
structure EffectChanges where
  before : List String
  after : List String
  added : List String
  removed : List String

/-- A declaration changed under its name. -/
structure Modified where
  name : String
  signatureBefore : String
  signatureAfter : String
  signatureChanged : Bool
  effectChanges : EffectChanges
  oldSigId : SigId

/-- **What a diff says.** -/
structure DiffReport where
  added : List AddRemove
  removed : List AddRemove
  renamed : List Renamed
  modified : List Modified

/-! ## Signatures as text -/

section Render

variable (debugStr : String → String)

/-- An effect with its argument. -/
def effectLabel (effect : Effect) : String :=
  match effect.arg with
  | some (.str value) => effect.name ++ "(" ++ debugStr value ++ ")"
  | some (.int value) => effect.name ++ "(" ++ toString value ++ ")"
  | some (.ident value) => effect.name ++ "(" ++ value ++ ")"
  | none => effect.name

/-- The parts with commas between. -/
def commaSep (parts : List String) : String := String.intercalate ", " parts

mutual

/-- A type as text. A refinement's predicate is left out. -/
def renderType : TypeExpr → String
  | .named name [] => name
  | .named name (arg :: args) => name ++ "[" ++ commaSep (renderTypes (arg :: args)) ++ "]"
  | .tuple items => "(" ++ commaSep (renderTypes items) ++ ")"
  | .record fields => "\x7b " ++ commaSep (renderFields fields) ++ " \x7d"
  | .recordWithSpreads spreads fields =>
    "\x7b " ++ commaSep (spreads.map (fun s => "..." ++ s) ++ renderFields fields) ++ " \x7d"
  | .function params effects effectRowVar ret =>
    let names := effects.map Effect.name ++
      match effectRowVar with
      | some v => ["| " ++ v]
      | none => []
    let row :=
      if effects.isEmpty && effectRowVar.isNone then "" else "[" ++ commaSep names ++ "] "
    "(" ++ commaSep (renderTypes params) ++ ") -> " ++ row ++ renderType ret
  | .union variants => String.intercalate " | " (renderVariants variants)
  | .refined base binding _ => renderType base ++ "\x7b" ++ binding ++ " | …\x7d"

def renderTypes : List TypeExpr → List String
  | [] => []
  | ty :: tys => renderType ty :: renderTypes tys

def renderFields : List (String × TypeExpr) → List String
  | [] => []
  | (name, ty) :: fields => (name ++ " :: " ++ renderType ty) :: renderFields fields

def renderVariants : List (String × Option TypeExpr) → List String
  | [] => []
  | (name, none) :: variants => name :: renderVariants variants
  | (name, some payload) :: variants =>
    (name ++ "(" ++ renderType payload ++ ")") :: renderVariants variants

end

/-- The signature of a function as text. -/
def renderSignature (decl : FnDecl) : String :=
  let params := decl.params.map fun param => param.1 ++ " :: " ++ renderType param.2
  let effects :=
    if decl.effects.isEmpty then ""
    else "[" ++ commaSep (decl.effects.map (effectLabel debugStr)) ++ "] "
  "fn " ++ decl.name ++ "(" ++ commaSep params ++ ") -> " ++ effects ++ renderType decl.returnType

/-- The signature of a type as text; how it begins tells it from a function's. -/
def renderTypeSignature (decl : TypeDecl) : String :=
  let params := if decl.params.isEmpty then "" else "[" ++ commaSep decl.params ++ "]"
  "type " ++ decl.name ++ params ++ " = " ++ renderType decl.definition

/-- What came and went between two effect lists, as sets of labels. -/
def effectDiff (a b : List Effect) : EffectChanges :=
  let labelsA := sortedSet (a.map (effectLabel debugStr))
  let labelsB := sortedSet (b.map (effectLabel debugStr))
  { before := labelsA
    after := labelsB
    added := labelsB.filter fun label => decide (label ∉ labelsA)
    removed := labelsA.filter fun label => decide (label ∉ labelsB) }

end Render

/-! ## The diff -/

section Diff

variable (hashes : Hashes) (debugStr : String → String)

/-- The hash of a function without its name. -/
def bodyHash (decl : FnDecl) : String :=
  stageCanonicalHash hashes (.fnDecl { decl with name := "" })

/-- The entries of one map whose names the other does not have, by name. -/
def onlyIn {α β : Type} (a : ExtTreeMap String α) (b : ExtTreeMap String β) :
    List (String × α) :=
  a.toList.filter fun entry => decide (entry.1 ∉ b)

/-- The entries of one map with those of the same name in the other, by name. -/
def inBoth {α β : Type} (a : ExtTreeMap String α) (b : ExtTreeMap String β) :
    List (String × α × β) :=
  a.toList.filterMap fun entry => b[entry.1]?.map fun other => (entry.1, entry.2, other)

/-- **Renames**: each function gone is paired with the first new one of its hash that is not paired
yet. -/
def renamedPairs (onlyB : List (String × FnDecl)) : List (String × FnDecl) → List String →
    List ((String × FnDecl) × (String × FnDecl))
  | [], _ => []
  | gone :: onlyA, consumed =>
    match onlyB.find? fun fresh =>
      decide (bodyHash hashes fresh.2 = bodyHash hashes gone.2 ∧ fresh.1 ∉ consumed) with
    | none => renamedPairs onlyB onlyA consumed
    | some fresh => (gone, fresh) :: renamedPairs onlyB onlyA (fresh.1 :: consumed)

/-- A function removed. -/
def removedFn (entry : String × FnDecl) : AddRemove where
  name := entry.1
  signature := renderSignature debugStr entry.2
  oldSigId := sigId hashes (.fnDecl entry.2)

/-- A function added. -/
def addedFn (entry : String × FnDecl) : AddRemove where
  name := entry.1
  signature := renderSignature debugStr entry.2
  oldSigId := none

/-- A function renamed. -/
def renamedFn (pair : (String × FnDecl) × (String × FnDecl)) : Renamed where
  fromName := pair.1.1
  toName := pair.2.1
  signature := renderSignature debugStr pair.2.2
  oldSigId := (sigId hashes (.fnDecl pair.1.2)).getD ""

/-- A function modified, unless nothing changed. -/
def modifiedFn (entry : String × FnDecl × FnDecl) : Option Modified :=
  let (name, fa, fb) := entry
  let sigA := renderSignature debugStr fa
  let sigB := renderSignature debugStr fb
  if bodyHash hashes fa = bodyHash hashes fb ∧ sigA = sigB then none
  else
    some
      { name, signatureBefore := sigA, signatureAfter := sigB
        signatureChanged := decide (sigA ≠ sigB)
        effectChanges := effectDiff debugStr fa.effects fb.effects
        oldSigId := (sigId hashes (.fnDecl fa)).getD "" }

/-- A type removed. -/
def removedType (entry : String × TypeDecl) : AddRemove where
  name := entry.1
  signature := renderTypeSignature entry.2
  oldSigId := sigId hashes (.typeDecl entry.2)

/-- A type added. -/
def addedType (entry : String × TypeDecl) : AddRemove where
  name := entry.1
  signature := renderTypeSignature entry.2
  oldSigId := none

/-- The type changed. -/
def typeChanged (entry : String × TypeDecl × TypeDecl) : Bool :=
  stageCanonicalHash hashes (.typeDecl entry.2.1) != stageCanonicalHash hashes (.typeDecl entry.2.2)

/-- … and so did its sig. -/
def typeMoved (entry : String × TypeDecl × TypeDecl) : Bool :=
  typeChanged hashes entry &&
    sigId hashes (.typeDecl entry.2.1) != sigId hashes (.typeDecl entry.2.2)

/-- A type modified in place. -/
def modifiedType (entry : String × TypeDecl × TypeDecl) : Modified where
  name := entry.1
  signatureBefore := renderTypeSignature entry.2.1
  signatureAfter := renderTypeSignature entry.2.2
  signatureChanged := true
  effectChanges := ⟨[], [], [], []⟩
  oldSigId := (sigId hashes (.typeDecl entry.2.1)).getD ""

/-- **The diff** of two programs, given by name. -/
def computeDiffWithTypes (a b : ExtTreeMap String FnDecl)
    (aTypes bTypes : ExtTreeMap String TypeDecl) : DiffReport :=
  let onlyA := onlyIn a b
  let onlyB := onlyIn b a
  let pairs := renamedPairs hashes onlyB onlyA []
  let consumedA := pairs.map fun pair => pair.1.1
  let consumedB := pairs.map fun pair => pair.2.1
  let moved := (inBoth aTypes bTypes).filter (typeMoved hashes)
  { removed :=
      (onlyA.filter fun entry => decide (entry.1 ∉ consumedA)).map (removedFn hashes debugStr) ++
        (onlyIn aTypes bTypes).map (removedType hashes) ++
        moved.map fun entry => removedType hashes (entry.1, entry.2.1)
    added :=
      (onlyB.filter fun entry => decide (entry.1 ∉ consumedB)).map (addedFn debugStr) ++
        (onlyIn bTypes aTypes).map addedType ++
        moved.map fun entry => addedType (entry.1, entry.2.2)
    renamed := pairs.map (renamedFn hashes debugStr)
    modified :=
      (inBoth a b).filterMap (modifiedFn hashes debugStr) ++
        ((inBoth aTypes bTypes).filter fun entry =>
          typeChanged hashes entry && !typeMoved hashes entry).map (modifiedType hashes) }

end Diff

end LexLang.Vcs
