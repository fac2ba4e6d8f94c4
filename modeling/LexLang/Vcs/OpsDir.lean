/-
# LexLang.Vcs.OpsDir — the ops directory: loose records, packs, and the calls that move between them

The files under `<root>/ops/` (`lex-vcs/src/op_log.rs`): one loose file for each record, and packs,
each a body of framed records and an index of offsets into it. `put`, `repack` and `evict` are lists
of file-system steps (create, rename, remove), each atomic, so that a crash is a prefix of the list.

A file name is its kind and what distinguishes it: an op id is a hex digest, so no loose file is
taken for a pack. A directory listing comes in any order (`Disk`).
-/
import LexLang.Vcs.Canonical

namespace LexLang.Vcs

open Std

/-! ## Files -/

/-- What a pack file is named by. -/
abbrev PackHash := String

/-- A pack's sidecar: where each record's frame starts in the body. -/
abbrev PackIndex := ExtTreeMap OpId Nat

/-- **The ops directory**, file kind by file kind. -/
structure OpsDir where
  /-- `<op_id>.json` -/
  loose : ExtTreeMap OpId OperationRecord
  /-- `<op_id>.json.tmp` -/
  looseTmp : ExtTreeMap OpId OperationRecord
  /-- `pack-<hash>.pack` -/
  packs : ExtTreeMap PackHash (List OperationRecord)
  /-- `pack-<hash>.pack.tmp` -/
  packTmp : ExtTreeMap PackHash (List OperationRecord)
  /-- `pack-<hash>.idx` -/
  indices : ExtTreeMap PackHash PackIndex
  /-- `pack-<hash>.idx.tmp` -/
  indexTmp : ExtTreeMap PackHash PackIndex

/-- The directory without files. -/
def OpsDir.empty : OpsDir := ⟨∅, ∅, ∅, ∅, ∅, ∅⟩

/-- **What the file system answers**: the length of a record's JSON, and the order a directory is
listed in. -/
structure Disk where
  size : OperationRecord → Nat
  readLoose : OpsDir → List OpId
  readLoose_perm : ∀ dir, (readLoose dir).Perm dir.loose.keys
  readPacks : OpsDir → List PackHash
  readPacks_perm : ∀ dir, (readPacks dir).Perm dir.indices.keys

/-- One atomic change of the directory. -/
inductive FsStep
  | createLooseTmp (record : OperationRecord)
  | renameLoose (id : OpId)
  | removeLoose (id : OpId)
  | createPackTmp (hash : PackHash) (frames : List OperationRecord)
  | createIndexTmp (hash : PackHash) (index : PackIndex)
  | renamePack (hash : PackHash)
  | renameIndex (hash : PackHash)
  | removePack (hash : PackHash)
  | removeIndex (hash : PackHash)

namespace OpsDir

/-- The directory after one step. Renaming a file that is not there changes nothing. -/
def apply (dir : OpsDir) : FsStep → OpsDir
  | .createLooseTmp record => { dir with looseTmp := dir.looseTmp.insert record.opId record }
  | .renameLoose id =>
    match dir.looseTmp[id]? with
    | some record =>
      { dir with loose := dir.loose.insert id record, looseTmp := dir.looseTmp.erase id }
    | none => dir
  | .removeLoose id => { dir with loose := dir.loose.erase id }
  | .createPackTmp hash frames => { dir with packTmp := dir.packTmp.insert hash frames }
  | .createIndexTmp hash index => { dir with indexTmp := dir.indexTmp.insert hash index }
  | .renamePack hash =>
    match dir.packTmp[hash]? with
    | some frames =>
      { dir with packs := dir.packs.insert hash frames, packTmp := dir.packTmp.erase hash }
    | none => dir
  | .renameIndex hash =>
    match dir.indexTmp[hash]? with
    | some index =>
      { dir with indices := dir.indices.insert hash index, indexTmp := dir.indexTmp.erase hash }
    | none => dir
  | .removePack hash => { dir with packs := dir.packs.erase hash }
  | .removeIndex hash => { dir with indices := dir.indices.erase hash }

/-- The directory after several steps. -/
def applyAll (dir : OpsDir) (steps : List FsStep) : OpsDir := steps.foldl apply dir

/-! ## Reading -/

section Read

variable (disk : Disk)

/-- The record whose frame starts at `offset`: a frame is an eight-byte length and the JSON. An
offset inside a frame reads garbage. -/
def readFrame : List OperationRecord → Nat → Option OperationRecord
  | [], _ => none
  | record :: _, 0 => some record
  | record :: frames, offset =>
    if 8 + disk.size record ≤ offset then readFrame frames (offset - (8 + disk.size record))
    else none

/-- `read_packed_op`; `none` is an I/O error. -/
def readPackedOp (dir : OpsDir) (hash : PackHash) (offset : Nat) : Option OperationRecord :=
  dir.packs[hash]?.bind fun frames => readFrame disk frames offset

/-- Scan the packs listed for an id. The outer `none` is an I/O error. -/
def scanPacks (dir : OpsDir) (id : OpId) : List PackHash → Option (Option OperationRecord)
  | [] => some none
  | hash :: hashes =>
    match dir.indices[hash]? with
    | none => none
    | some index =>
      match index[id]? with
      | none => dir.scanPacks id hashes
      | some offset => (dir.readPackedOp disk hash offset).map some

/-- **Read a record**: loose first, then the packs. -/
def get (dir : OpsDir) (id : OpId) : Option (Option OperationRecord) :=
  match dir.loose[id]? with
  | some record => some (some record)
  | none => dir.scanPacks disk id (disk.readPacks dir)

/-- Take one more record, unless one of its id was taken. -/
def takeUnseen (out : List OperationRecord) (record : OperationRecord) : List OperationRecord :=
  if record.opId ∈ out.map OperationRecord.opId then out else out ++ [record]

/-- The records of the loose files listed. -/
def listLoose (dir : OpsDir) : List OpId → List OperationRecord → Option (List OperationRecord)
  | [], out => some out
  | id :: ids, out =>
    match dir.get disk id with
    | none => none
    | some none => dir.listLoose ids out
    | some (some record) => dir.listLoose ids (takeUnseen out record)

/-- The records of one pack's index entries, unless their ids were taken. -/
def listEntries (dir : OpsDir) (hash : PackHash) :
    List (OpId × Nat) → List OperationRecord → Option (List OperationRecord)
  | [], out => some out
  | (id, offset) :: entries, out =>
    if id ∈ out.map OperationRecord.opId then dir.listEntries hash entries out
    else
      match dir.readPackedOp disk hash offset with
      | none => none
      | some record => dir.listEntries hash entries (out ++ [record])

/-- The records of the packs listed. -/
def listPacks (dir : OpsDir) : List PackHash → List OperationRecord → Option (List OperationRecord)
  | [], out => some out
  | hash :: hashes, out =>
    match dir.indices[hash]? with
    | none => none
    | some index =>
      match dir.listEntries disk hash index.toList out with
      | none => none
      | some out => dir.listPacks hashes out

/-- **Every record in the log**, the loose ones first. -/
def listAll (dir : OpsDir) : Option (List OperationRecord) :=
  match dir.listLoose disk (disk.readLoose dir) [] with
  | none => none
  | some out => dir.listPacks disk (disk.readPacks dir) out

end Read

/-! ## Writing -/

section Write

variable (digest : Digest) (disk : Disk)

/-- The steps of a put: nothing when the loose file is there, else write beside and rename. -/
def putSteps (dir : OpsDir) (record : OperationRecord) : List FsStep :=
  if dir.loose[record.opId]?.isSome then []
  else [.createLooseTmp record, .renameLoose record.opId]

/-- The name of a pack: the hash of its sorted op ids. -/
def packHash (ids : List OpId) : PackHash := digest.hashBytes [("", .strs ids)]

/-- Where the frames start, from `cursor` on. -/
def offsets : List (OpId × OperationRecord) → Nat → PackIndex → PackIndex
  | [], _, index => index
  | (id, record) :: ops, cursor, index =>
    offsets ops (cursor + (8 + disk.size record)) (index.insert id cursor)

/-- Sort by op id. -/
def sortOps (ops : List (OpId × OperationRecord)) : List (OpId × OperationRecord) :=
  ops.insertionSort fun a b => a.1 ≤ b.1

/-- The steps that write a pack, body first: none when both files are there. -/
def packSteps (dir : OpsDir) (ops : List (OpId × OperationRecord)) : List FsStep :=
  let ops := sortOps ops
  let hash := packHash digest (ops.map Prod.fst)
  if dir.packs[hash]?.isSome ∧ dir.indices[hash]?.isSome then []
  else
    [.createPackTmp hash (ops.map Prod.snd), .createIndexTmp hash (offsets disk ops 0 ∅),
      .renamePack hash, .renameIndex hash]

/-- The loose records, in the order listed. -/
def looseOps (dir : OpsDir) : List (OpId × OperationRecord) :=
  (disk.readLoose dir).filterMap fun id => dir.loose[id]?.map fun record => (id, record)

/-- **The steps of a repack**: write the pack, then remove the loose files. -/
def repackSteps (dir : OpsDir) (threshold : Nat) : List FsStep :=
  if (disk.readLoose dir).length < threshold then []
  else packSteps digest disk dir (dir.looseOps disk) ++ (disk.readLoose dir).map .removeLoose

/-- The records of a pack that are to stay; `none` is an I/O error. -/
def survivors (dir : OpsDir) (victims : Finset OpId) (hash : PackHash) :
    List (OpId × Nat) → Option (List (OpId × OperationRecord))
  | [] => some []
  | (id, offset) :: entries =>
    if id ∈ victims then dir.survivors victims hash entries
    else
      match dir.readPackedOp disk hash offset, dir.survivors victims hash entries with
      | some record, some rest => some ((id, record) :: rest)
      | _, _ => none

/-- **The steps that rewrite one pack without the victims**: its body and index go first. `none` is
an I/O error. -/
def evictPackSteps (dir : OpsDir) (victims : Finset OpId) (hash : PackHash) :
    Option (List FsStep) :=
  match dir.indices[hash]? with
  | none => none
  | some index =>
    if index.keys.any fun id => decide (id ∈ victims) then
      match dir.survivors disk victims hash index.toList with
      | none => none
      | some [] => some [.removePack hash, .removeIndex hash]
      | some ops =>
        some (.removePack hash :: .removeIndex hash ::
          packSteps digest disk
            (dir.applyAll [.removePack hash, .removeIndex hash]) ops)
    else some []

/-- The steps over the packs listed, and whether they run to the end. -/
def evictPacks (dir : OpsDir) (victims : Finset OpId) : List PackHash → List FsStep × Bool
  | [] => ([], true)
  | hash :: hashes =>
    match dir.evictPackSteps digest disk victims hash with
    | none => ([], false)
    | some steps =>
      let rest := (dir.applyAll steps).evictPacks victims hashes
      (steps ++ rest.1, rest.2)

/-- The steps that remove the victims' loose files. -/
def evictLoose (dir : OpsDir) (victims : Finset OpId) : List FsStep :=
  ((disk.readLoose dir).filter fun id => decide (id ∈ victims)).map .removeLoose

/-- **The steps of an evict**, and whether they run to the end: loose files first, then the packs. -/
def evictSteps (dir : OpsDir) (victims : Finset OpId) : List FsStep × Bool :=
  let loose := dir.evictLoose disk victims
  let dir := dir.applyAll loose
  let rest := dir.evictPacks digest disk victims (disk.readPacks dir)
  (loose ++ rest.1, rest.2)

/-- `delete`: the loose file only. -/
def delete (dir : OpsDir) (id : OpId) : OpsDir := dir.apply (.removeLoose id)

/-- `put` run to the end. -/
def put (dir : OpsDir) (record : OperationRecord) : OpsDir := dir.applyAll (dir.putSteps record)

end Write

end OpsDir

end LexLang.Vcs
