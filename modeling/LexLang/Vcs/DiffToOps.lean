/-
# LexLang.Vcs.DiffToOps — the operations of a diff

A diff as operation kinds (`lex-vcs/src/diff_to_ops.rs`), imports first, then what was removed, added,
renamed and modified. An entry that names no declaration, or a sig the old head does not have, is a
mapping error.
-/
import LexLang.Vcs.ComputeDiff
import LexLang.Vcs.Replay

namespace LexLang.Vcs

open LexLang.Ast
open Std

/-! ## Inputs -/

/-- An import: the module and the name it is bound to. -/
structure ImportRef where
  reference : String
  importAlias : String
  deriving DecidableEq

/-- The imports of each file, in order and each once. -/
abbrev ImportMap := ExtTreeMap String (List ImportRef)

/-- Why a diff cannot be mapped. -/
inductive DiffMappingError
  | missingOldSigForName (name : String)
  | missingNewStageForName (name : String)
  | missingOldHeadForSig (sigId : SigId)
  | noSigIdForStage (name : String)
  | noStageIdForStage (name : String)
  deriving DecidableEq

/-- What the mapping works from. -/
structure DiffInputs where
  oldHead : HeadMap
  oldEffects : ExtTreeMap SigId EffectSet
  oldImports : ImportMap
  newStages : List Stage
  newImports : ImportMap
  diff : DiffReport
  modulePrefixes : ExtTreeMap String String

/-! ## Names and labels -/

/-- `strip_prefix`. -/
def stripPrefix (start : List Char) (s : List Char) : Option (List Char) :=
  if start.isPrefixOf s then some (s.drop start.length) else none

/-- `strip_suffix`. -/
def stripSuffix (ending : List Char) (s : List Char) : Option (List Char) :=
  if ending.isSuffixOf s then some (s.take (s.length - ending.length)) else none

/-- `parse::<u64>`: digits, after a plus sign at most, and no overflow. -/
def parseU64 (s : List Char) : Option UInt64 :=
  let digits := if s.head? = some '+' then s.tail else s
  if digits = [] ∨ ¬ digits.all Char.isDigit then none
  else
    let n := digits.foldl (fun n c => 10 * n + (c.toNat - '0'.toNat)) 0
    if n < 2 ^ 64 then some (UInt64.ofNat n) else none

/-- The budget an effect label declares. -/
def labelBudget (label : String) : Option UInt64 :=
  (stripPrefix "budget(".toList label.toList).bind fun rest =>
    (stripSuffix [')'] rest).bind parseU64

/-- **The least budget among effect labels.** -/
def budgetFromEffects (effects : EffectSet) : Option UInt64 :=
  effects.toList.foldl (fun least label =>
    match labelBudget label with
    | none => least
    | some n =>
      match least with
      | some c => some (min c n)
      | none => some n) none

/-- The labels of a declared effect row. -/
def effectSet (debugStr : String → String) (effects : List Effect) : EffectSet :=
  ExtTreeSet.ofList (effects.map (effectLabel debugStr))

/-- The alias an import has by default: the last segment of its path that is not empty. -/
def defaultImportAlias (module : String) : String :=
  match (module.toList.splitOnP fun c => c = '.' || c = '/').reverse.find? (· ≠ []) with
  | some segment => String.ofList segment
  | none => module

/-- The alias to record: none when it is the default one. -/
def explicitAlias (m : ImportRef) : Option String :=
  if m.importAlias = defaultImportAlias m.reference then none else some m.importAlias

/-- What comes before the first dot of a name that has one. -/
def namePrefix (name : String) : Option String :=
  if '.' ∈ name.toList then some (String.ofList (name.toList.takeWhile (· ≠ '.'))) else none

/-- The file a declaration of a package comes from. -/
def originFile (name : String) (modulePrefixes : ExtTreeMap String String) : Option String :=
  (namePrefix name).bind fun start => modulePrefixes[start]?

/-! ## The mapping -/

section Mapping

variable (hashes : Hashes) (debugStr : String → String) (inputs : DiffInputs)

/-- The new declarations by name, the last of a name. -/
def newByName (stages : List Stage) : ExtTreeMap String Stage :=
  Std.ExtTreeMap.ofList (stages.filterMap fun stage => stage.declName.map fun name => (name, stage))

/-- The import operations: file by file, removals before additions, then the files gone. -/
def importOps (oldImports newImports : ImportMap) : List OperationKind :=
  newImports.toList.flatMap (fun entry =>
    let (file, modules) := entry
    let old := oldImports[file]?.getD []
    (old.filter fun m => decide (m ∉ modules)).map (fun m =>
      OperationKind.removeImport file m.reference) ++
      (modules.filter fun m => decide (m ∉ old)).map fun m =>
        OperationKind.addImport file m.reference (explicitAlias m)) ++
    oldImports.toList.flatMap fun entry =>
      if entry.1 ∈ newImports then []
      else entry.2.map fun m => OperationKind.removeImport entry.1 m.reference

/-- The operation of a removal: the signature text tells types from functions. -/
def removedOp (r : AddRemove) : Except DiffMappingError OperationKind :=
  match r.oldSigId with
  | none => .error (.missingOldSigForName r.name)
  | some sig =>
    match inputs.oldHead[sig]? with
    | none => .error (.missingOldHeadForSig sig)
    | some last =>
      if r.signature.startsWith "type " then .ok (.removeType sig last)
      else .ok (.removeFunction sig last)

/-- The new declaration of a name, with its ids. -/
def newStageFor (name : String) : Except DiffMappingError (Stage × SigId × StageId) :=
  match (newByName inputs.newStages)[name]? with
  | none => .error (.missingNewStageForName name)
  | some stage =>
    match sigId hashes stage with
    | none => .error (.noSigIdForStage name)
    | some sig =>
      match stageId hashes stage with
      | none => .error (.noStageIdForStage name)
      | some stg => .ok (stage, sig, stg)

/-- The operation of an addition. -/
def addedOp (a : AddRemove) : Except DiffMappingError OperationKind :=
  match newStageFor hashes inputs a.name with
  | .error e => .error e
  | .ok (stage, sig, stg) =>
    let inFile := originFile a.name inputs.modulePrefixes
    match stage with
    | .fnDecl decl =>
      let effects := effectSet debugStr decl.effects
      .ok (.addFunction sig stg effects (budgetFromEffects effects) inFile)
    | .typeDecl _ => .ok (.addType sig stg inFile)
    | .importDecl _ => .error (.noSigIdForStage a.name)

/-- The operation of a rename; a declaration that moved to another file says where. -/
def renamedOp (r : Renamed) : Except DiffMappingError OperationKind :=
  match newStageFor hashes inputs r.toName with
  | .error e => .error e
  | .ok (_, toSig, bodyId) =>
    let inFile :=
      if namePrefix r.fromName ≠ namePrefix r.toName then
        originFile r.toName inputs.modulePrefixes
      else none
    .ok (.renameSymbol r.oldSigId toSig bodyId inFile)

/-- The operation of a modification; a new sig is where the declaration moves. -/
def modifiedOp (m : Modified) : Except DiffMappingError OperationKind :=
  let sig := m.oldSigId
  match inputs.oldHead[sig]? with
  | none => .error (.missingOldHeadForSig sig)
  | some fromId =>
    match (newByName inputs.newStages)[m.name]? with
    | none => .error (.missingNewStageForName m.name)
    | some stage =>
      match stageId hashes stage with
      | none => .error (.noStageIdForStage m.name)
      | some toId =>
        let effectsChanged :=
          !m.effectChanges.added.isEmpty || !m.effectChanges.removed.isEmpty
        let toSigId := (sigId hashes stage).filter fun s => decide (s ≠ sig)
        match stage with
        | .fnDecl decl =>
          let toEffects := effectSet debugStr decl.effects
          let toBudget := budgetFromEffects toEffects
          if effectsChanged then
            let fromEffects := inputs.oldEffects[sig]?.getD ∅
            .ok (.changeEffectSig sig fromId toId fromEffects toEffects
              (budgetFromEffects fromEffects) toBudget toSigId)
          else .ok (.modifyBody sig fromId toId toBudget toBudget toSigId)
        | .typeDecl _ => .ok (.modifyType sig fromId toId toSigId)
        | .importDecl _ => .error (.noStageIdForStage m.name)

/-- **The operations of a diff**, or the first entry that cannot be mapped. -/
def diffToOps : Except DiffMappingError (List OperationKind) :=
  match inputs.diff.removed.mapM (removedOp inputs) with
  | .error e => .error e
  | .ok removed =>
    match inputs.diff.added.mapM (addedOp hashes debugStr inputs) with
    | .error e => .error e
    | .ok added =>
      match inputs.diff.renamed.mapM (renamedOp hashes inputs) with
      | .error e => .error e
      | .ok renamed =>
        match inputs.diff.modified.mapM (modifiedOp hashes debugStr inputs) with
        | .error e => .error e
        | .ok modified =>
          .ok (importOps inputs.oldImports inputs.newImports ++ removed ++ added ++
            renamed ++ modified)

end Mapping

end LexLang.Vcs
