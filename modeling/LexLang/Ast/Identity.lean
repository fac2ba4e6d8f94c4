/-
# LexLang.Ast.Identity — the identities of declarations

A declaration's sig id hashes its name and its signature, its stage id what it does and its shape
without the name (`lex-ast/src/lib.rs`). Comments are in neither. The hash is a collision-free map of
what is hashed (`Hashes`).
-/
import LexLang.Ast.Canonical

namespace LexLang.Ast

open Option

/-! ## What is hashed -/

/-- The signature of a declaration, with its name where the name counts. -/
inductive SigContent
  | fn (effects : List Effect) (inputTypes : List TypeExpr) (outputType : TypeExpr)
      (examples : List Example) (name : Option String)
  | type (params : List String) (name : Option String)

/-- The name of a declaration. -/
def Stage.declName : Stage → Option String
  | .fnDecl decl => some decl.name
  | .typeDecl decl => some decl.name
  | .importDecl _ => none

/-- The signature. An import has none. -/
def Stage.sigContent (includeName : Bool) : Stage → Option SigContent
  | .fnDecl decl =>
    some (.fn decl.effects (decl.params.map Prod.snd) decl.returnType decl.examples
      (if includeName then some decl.name else none))
  | .typeDecl decl => some (.type decl.params (if includeName then some decl.name else none))
  | .importDecl _ => none

/-- What is written of a declaration: everything but its comments. -/
def Stage.content : Stage → Stage
  | .fnDecl decl => .fnDecl { decl with doc := [] }
  | .typeDecl decl => .typeDecl { decl with doc := [] }
  | .importDecl decl => .importDecl decl

/-- The name blanked out. -/
def Stage.stripNames : Stage → Stage
  | .fnDecl decl => .fnDecl { decl with name := "" }
  | .typeDecl decl => .typeDecl { decl with name := "" }
  | .importDecl decl => .importDecl decl

/-- **The hash**, as far as identities rely on it: no collisions. -/
structure Hashes where
  /-- The hash of a signature. -/
  sig : SigContent → String
  sig_injective : Function.Injective sig
  /-- The hash of a declaration as written. -/
  stage : Stage → String
  stage_injective : Function.Injective stage
  /-- The hash of two hashes. -/
  both : String → String → String
  both_injective : ∀ a b a' b', both a b = both a' b' → a = a' ∧ b = b'

variable (hashes : Hashes)

/-! ## Identities -/

/-- The hash of a declaration as it is written. -/
def stageCanonicalHash (stage : Stage) : String := hashes.stage stage.content

/-- **The sig id**: name and signature. -/
def sigId (stage : Stage) : Option String := (stage.sigContent true).map hashes.sig

/-- The signature without the name. -/
def structuralSigHash (stage : Stage) : Option String := (stage.sigContent false).map hashes.sig

/-- The declaration without the name. -/
def implementationHash (stage : Stage) : String := stageCanonicalHash hashes stage.stripNames

/-- **The stage id**: what a declaration does and what shape it has. -/
def stageId (stage : Stage) : Option String :=
  (structuralSigHash hashes stage).map fun sig => hashes.both sig (implementationHash hashes stage)

/-! ## What identities tell apart -/

/-- A declaration of a sort and a name: what a sig id tells apart at least. -/
inductive DeclKey
  | fn (name : String)
  | type (name : String)
  deriving DecidableEq

/-- The sort and the name of a declaration. -/
def Stage.key : Stage → Option DeclKey
  | .fnDecl decl => some (.fn decl.name)
  | .typeDecl decl => some (.type decl.name)
  | .importDecl _ => none

variable {hashes}

variable {stage stage' : Stage}

/-- One sig id, one name, and functions are no types. -/
theorem key_eq_of_sigId_eq {sig : String}
    (h : sigId hashes stage = some sig) (h' : sigId hashes stage' = some sig) : stage.key = stage'.key := by
  unfold sigId at h h'
  obtain ⟨content, hcontent, hsig⟩ := map_eq_some_iff.mp h
  obtain ⟨content', hcontent', hsig'⟩ := map_eq_some_iff.mp h'
  obtain rfl := hashes.sig_injective (hsig.trans hsig'.symm)
  cases stage <;> cases stage' <;>
    simp only [Stage.sigContent, some.injEq, reduceCtorEq] at hcontent hcontent'
  all_goals
    subst hcontent
    simp_all [Stage.key]

/-- What is written alike is the same declaration, comments apart. -/
theorem content_eq_of_hash_eq (h : stageCanonicalHash hashes stage = stageCanonicalHash hashes stage') :
    stage.content = stage'.content := hashes.stage_injective h

/-- Comments are in no identity. -/
theorem ids_eq_of_content_eq (h : stage.content = stage'.content) :
    sigId hashes stage = sigId hashes stage' ∧ stageId hashes stage = stageId hashes stage' := by
  have hsig : ∀ includeName, stage.sigContent includeName = stage'.sigContent includeName := by
    intro includeName
    have hcontent : ∀ s : Stage, s.content.sigContent includeName = s.sigContent includeName := by
      intro s
      cases s <;> rfl
    rw [← hcontent stage, h, hcontent]
  have himpl : stage.stripNames.content = stage'.stripNames.content := by
    have hcomm : ∀ s : Stage, s.stripNames.content = s.content.stripNames := by
      intro s
      cases s <;> rfl
    rw [hcomm, hcomm, h]
  refine ⟨by rw [sigId, sigId, hsig], ?_⟩
  unfold stageId structuralSigHash implementationHash stageCanonicalHash
  rw [hsig, himpl]

end LexLang.Ast
