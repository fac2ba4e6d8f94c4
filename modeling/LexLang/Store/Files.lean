/-
# LexLang.Store.Files — files beside the op log, and which of them a head needs

Everything of a repository that is not program text is kept as blobs, content-addressed, and named by
a manifest, which is a blob itself (`lex-store/src/files.rs`). A `SetFiles` operation makes a manifest
the file set of a branch; `manifestAt` is the file set in force at an operation.

`FileStore` is the store with its blobs and blob references, each blob with the time its file was
written. The garbage collection of blobs (`lex-store/src/gc.rs`) marks what retained operations and
blob references name, and deletes the rest once it is old enough.
-/
import LexLang.Store.Landing

namespace LexLang

open LexLang.Vcs LexLang.Graph
open List
open Std

/-! ## Blob ids and manifests -/

/-- The content of a file. -/
abbrev Bytes := List UInt8

/-- 64 lowercase hex digits. -/
def isBlobId (s : String) : Bool :=
  s.toList.length == 64 && s.toList.all fun c => c.isDigit || decide ('a' ≤ c ∧ c ≤ 'f')

/-- One file of a manifest. -/
structure Entry where
  blob : BlobId
  mode : String
  size : Nat
  deriving DecidableEq

/-- **A snapshot of the files**, by path. -/
structure Manifest where
  version : Nat
  entries : ExtTreeMap String Entry

/-- The only version there is. -/
def manifestVersion : Nat := 1

/-- A regular file. -/
def modeFile : String := "100644"

/-- An executable file. -/
def modeExec : String := "100755"

/-- Why a manifest is not acceptable. -/
inductive ManifestError
  | malformed (message : String)
  | notCanonical
  | unsupportedVersion (version : Nat)
  | invalidPath (path reason : String)
  | reservedPath (path : String)
  | caseCollision (first second : String)
  | fileDirCollision (file path : String)
  | invalidMode (path mode : String)
  | invalidBlobId (path blob : String)
  | sizeMismatch (path : String) (expected actual : Nat)
  deriving DecidableEq

/-- Program text is the op log's. -/
def isReservedPath (path : String) : Bool :=
  path == "src.lex" ||
    ("src/".toList.isPrefixOf path.toList && ".lex".toList.isSuffixOf path.toList)

/-- Equal but for the case of ASCII letters. -/
def eqIgnoreAsciiCase (a b : List Char) : Bool := a.map Char.toLower == b.map Char.toLower

/-- What is wrong with the component at an index of a path. -/
def badComponent (comp : List Char) (i : Nat) : Option String :=
  if comp = [] then some "empty component"
  else if comp = ".".toList ∨ comp = "..".toList then some "`.` or `..` component"
  else if eqIgnoreAsciiCase comp ".git".toList then some "`.git` component"
  else if i = 0 ∧ eqIgnoreAsciiCase comp ".lex".toList then some "`.lex` store directory"
  else none

/-- Check one path by itself. -/
def validatePath (path : String) : Except ManifestError Unit :=
  let chars := path.toList
  if chars = [] then .error (.invalidPath path "empty")
  else if chars.head? = some '/' then .error (.invalidPath path "absolute")
  else if '\\' ∈ chars then .error (.invalidPath path "contains `\\`")
  else if '\x00' ∈ chars then .error (.invalidPath path "contains NUL")
  else
    match (chars.splitOn '/').zipIdx.findSome? fun entry => badComponent entry.1 entry.2 with
    | some reason => .error (.invalidPath path reason)
    | none => if isReservedPath path then .error (.reservedPath path) else .ok ()

/-- The directories a path is in. -/
def properDirs (path : String) : List String :=
  let comps := path.toList.splitOn '/'
  (List.range (comps.length - 1)).map fun n =>
    String.ofList (List.intercalate ['/'] (comps.take (n + 1)))

/-- **What blobs rest on**: the hash they are filed under, JSON, and the Unicode lower case. Besides,
which operations the retention predicates of the policy match. -/
structure FilesEnv where
  sha256 : Bytes → BlobId
  sha256_injective : Function.Injective sha256
  /-- `serde_json::to_vec`. -/
  toVec : Manifest → Bytes
  /-- `serde_json::from_slice`. -/
  fromSlice : Bytes → Except String Manifest
  toLowercase : String → String
  matched : Store → List OpId

variable (files : FilesEnv)

namespace Manifest

/-- Check the entries one after another, with the paths so far in lower case. -/
def checkEntries : List (String × Entry) → ExtTreeMap String String →
    Except ManifestError Unit
  | [], _ => .ok ()
  | (path, e) :: entries, folded =>
    match validatePath path with
    | .error err => .error err
    | .ok () =>
      if e.mode ≠ modeFile ∧ e.mode ≠ modeExec then .error (.invalidMode path e.mode)
      else if !isBlobId e.blob then .error (.invalidBlobId path e.blob)
      else
        match folded[files.toLowercase path]? with
        | some prev => .error (.caseCollision prev path)
        | none => checkEntries entries (folded.insert (files.toLowercase path) path)

/-- **Check a manifest**: its version, each entry, and the entries against each other. -/
def validate (m : Manifest) : Except ManifestError Unit :=
  if m.version ≠ manifestVersion then .error (.unsupportedVersion m.version)
  else
    match checkEntries files m.entries.toList ∅ with
    | .error err => .error err
    | .ok () =>
      -- a file is no directory
      match m.entries.keys.findSome? fun path =>
        ((properDirs path).find? fun dir => decide (dir ∈ m.entries)).map fun dir =>
          ManifestError.fileDirCollision dir path with
      | some err => .error err
      | none => .ok ()

/-- Decode a manifest: only the canonical encoding of a valid one is accepted. -/
def fromBytes (bytes : Bytes) : Except ManifestError Manifest :=
  match files.fromSlice bytes with
  | .error message => .error (.malformed message)
  | .ok m =>
    if files.toVec m ≠ bytes then .error .notCanonical
    else
      match validate files m with
      | .error err => .error err
      | .ok () => .ok m

/-- The blobs of the entries. -/
def blobs (m : Manifest) : List BlobId := m.entries.values.map Entry.blob

end Manifest

/-! ## The manifest in force -/

/-- The file set at an operation: none, one, or none that is well-defined. -/
inductive ManifestAt
  | absent
  | set (manifest : BlobId)
  | ambiguous
  deriving DecidableEq

/-- Equal values combine to that value, none to no files. -/
def combine : List ManifestAt → ManifestAt
  | [] => .absent
  | first :: rest => if rest.all (· = first) then first else .ambiguous

namespace Vcs.OpLog

/-- The nearest `SetFiles` on every path back, to a depth. -/
def manifestWithin (log : OpLog) : Nat → OpId → ManifestAt
  | 0, _ => .absent
  | depth + 1, id =>
    match log.get id with
    | none => .absent
    | some record =>
      match record.op.kind with
      | .setFiles manifest => .set manifest
      | _ => combine (record.op.parents.map (log.manifestWithin depth))

attribute [local simp] manifestWithin

/-- **The manifest in force at an operation** (`resolve_manifest_at`, whose memo and stack save work).
No path back is longer than the log. -/
def manifestAt (log : OpLog) (id : OpId) : ManifestAt := log.manifestWithin (log.ids.card + 1) id

variable {log log' : OpLog}

theorem manifestWithin_stable {rank : OpId → ℕ}
    (hrank : ∀ a b, Edge log.parentsOf a b → rank b < rank a) :
    ∀ (depth depth' : Nat) (id : OpId), rank id < depth → rank id < depth' →
      log.manifestWithin depth id = log.manifestWithin depth' id
  | 0, _, _, h, _ => absurd h (Nat.not_lt_zero _)
  | _, 0, _, _, h => absurd h (Nat.not_lt_zero _)
  | depth + 1, depth' + 1, id, h, h' => by
    unfold manifestWithin
    cases hget : log.get id with
    | none => rfl
    | some record =>
      have hparents : record.op.parents.map (log.manifestWithin depth) =
          record.op.parents.map (log.manifestWithin depth') := by
        refine map_congr_left fun p hp => ?_
        have hlt := hrank id p (edge_iff.mpr ⟨record, hget, hp⟩)
        exact manifestWithin_stable hrank depth depth' p (by omega) (by omega)
      simp only [hparents]

variable {id : OpId} {record : OperationRecord}

/-- **The recursion of `manifestAt`.** -/
theorem manifestAt_of_get (hac : log.Acyclic)
    (hget : log.get id = some record) : log.manifestAt id =
      match record.op.kind with
      | .setFiles manifest => .set manifest
      | _ => combine (record.op.parents.map log.manifestAt) := by
  obtain ⟨rank, hrank, hle⟩ := Graph.Acyclic.exists_rank_le log.ids
    (fun _ h => mem_ids.mpr (parentsOf_ne_none.mp h)) hac
  have hparents : record.op.parents.map (log.manifestWithin log.ids.card) =
      record.op.parents.map log.manifestAt := by
    refine map_congr_left fun p hp => ?_
    have hlt := hrank id p (edge_iff.mpr ⟨record, hget, hp⟩)
    have hid := hle id
    exact manifestWithin_stable hrank _ _ p (by omega) (by omega)
  rw [manifestAt, manifestWithin, hget]
  simp only [hparents]

variable {manifest : BlobId}

theorem manifestAt_setFiles (hget : log.get id = some record) (hkind : record.op.kind = .setFiles manifest) :
    log.manifestAt id = .set manifest := by
  rw [manifestAt, manifestWithin, hget]
  simp only [hkind]

theorem mem_of_combine {values : List ManifestAt} (h : combine values = .set manifest) : .set manifest ∈ values := by
  cases values with
  | nil => cases h
  | cons first rest =>
    simp only [combine] at h
    split at h
    · rw [h]
      exact mem_cons_self
    · cases h

theorem setFiles_of_manifestWithin : ∀ {depth : Nat} {id : OpId},
    log.manifestWithin depth id = .set manifest →
      ∃ ancestor record, log.Reach id ancestor ∧ log.get ancestor = some record ∧
        record.op.kind = .setFiles manifest
  | 0, _, h => by cases h
  | depth + 1, id, h => by
    unfold manifestWithin at h
    cases hget : log.get id with
    | none =>
      rw [hget] at h
      cases h
    | some record =>
      rw [hget] at h
      simp only at h
      split at h
      · rename_i manifest' hkind
        obtain rfl : manifest' = manifest := by injection h
        exact ⟨id, record, .refl, hget, hkind⟩
      · obtain ⟨p, hp, hset⟩ := mem_map.mp (mem_of_combine h)
        obtain ⟨ancestor, record', hreach, h'⟩ := setFiles_of_manifestWithin hset
        exact ⟨ancestor, record', .head (edge_iff.mpr ⟨record, hget, hp⟩) hreach, h'⟩

theorem manifestAt_congr (hac : log.Acyclic) (hac' : log'.Acyclic)
    (h : ∀ ancestor, log.Reach id ancestor → log'.get ancestor = log.get ancestor) :
    log'.manifestAt id = log.manifestAt id := by
  obtain ⟨rank, hrank, -⟩ := Graph.Acyclic.exists_rank_le log.ids
    (fun _ h => mem_ids.mpr (parentsOf_ne_none.mp h)) hac
  induction hn : rank id using Nat.strong_induction_on generalizing id with
  | _ n ih =>
    have hsame := h id .refl
    cases hget : log.get id with
    | none =>
      rw [hget] at hsame
      unfold manifestAt manifestWithin
      simp only [hget, hsame]
    | some record =>
      rw [hget] at hsame
      have hparents : record.op.parents.map log'.manifestAt =
          record.op.parents.map log.manifestAt := by
        refine map_congr_left fun p hp => ?_
        have hedge : Edge log.parentsOf id p := edge_iff.mpr ⟨record, hget, hp⟩
        exact ih (rank p) (hn ▸ hrank id p hedge) (fun a ha => h a (.head hedge ha)) rfl
      rw [manifestAt_of_get hac hget, manifestAt_of_get hac' hsame]
      simp only [hparents]

/-- **A closed log that grows keeps every file set.** -/
theorem manifestAt_of_le (hac : log.Acyclic) (hac' : log'.Acyclic) (hclosed : log.Closed)
    (hle : log.Le log') (hid : log.get id ≠ none) : log'.manifestAt id = log.manifestAt id :=
  manifestAt_congr hac hac' fun _ hreach => (hclosed.get_of_le hle hid hreach).symm

end Vcs.OpLog

/-! ## The blobs of a store -/

/-- A blob file, and when it was last written. -/
structure Blob where
  bytes : Bytes
  mtime : Nat
  deriving DecidableEq

/-- **The store with its files**: blobs under their ids, and the ids bound under `blobrefs`. The time
is the store's clock. -/
structure FileStore where
  store : Store
  blobs : ExtTreeMap BlobId Blob
  blobRefs : List BlobId

/-- Why a call on files fails. -/
inductive FileError
  | store (error : StoreError)
  | unknownBlob (id : BlobId)
  | missingBlobs (ids : List BlobId)
  | invalidManifest (error : ManifestError)
  deriving DecidableEq

namespace FileStore

variable (s : FileStore)

/-- The time now. -/
def now : Nat := s.store.clock

/-- Whether a blob is there. -/
def hasBlob (id : BlobId) : Bool := isBlobId id && s.blobs.contains id

/-- The content of a blob. -/
def getBlobBytes (id : BlobId) : Except FileError Bytes :=
  if !isBlobId id then .error (.unknownBlob id)
  else
    match s.blobs[id]? with
    | some blob => .ok blob.bytes
    | none => .error (.unknownBlob id)

/-- The length of a blob, if it is there. -/
def blobLen (id : BlobId) : Option Nat :=
  if !isBlobId id then none else s.blobs[id]?.map fun blob => blob.bytes.length

/-- A manifest, decoded. -/
def getManifest (id : BlobId) : Except FileError Manifest :=
  match s.getBlobBytes id with
  | .error e => .error e
  | .ok bytes =>
    match Manifest.fromBytes files bytes with
    | .error e => .error (.invalidManifest e)
    | .ok m => .ok m

/-! ## Garbage collection -/

/-- The operations that `plan_gc` retains: those the branch heads reach and those the retention
predicates match, each with its ancestors. -/
def retained : List OperationRecord :=
  let heads := s.store.branches.toList.filterMap fun entry => entry.2.headOp
  (heads ++ files.matched s.store).flatMap fun id => s.store.log.walkBack id none

/-- A manifest, and its blobs if it can be read. -/
def closure (manifest : BlobId) : List BlobId :=
  manifest ::
    match s.getManifest files manifest with
    | .ok m => m.blobs
    | .error _ => []

/-- What a retained operation marks. -/
def marks (record : OperationRecord) : List BlobId :=
  match record.op.kind with
  | .setFiles manifest => s.closure files manifest
  | _ => []

/-- Delete a blob. -/
def deleteBlob (id : BlobId) : FileStore :=
  if !isBlobId id then s else { s with blobs := s.blobs.erase id }

end FileStore

/-- What a pass finds: the blobs named, those to delete, and those too young to. -/
structure BlobGcPlan where
  live : ExtTreeSet BlobId
  toDelete : List BlobId
  skippedWithinGrace : List BlobId

namespace FileStore

variable (s : FileStore)

/-- A file last written then is old enough to go. One from the future is not. -/
def oldEnough (grace mtime : Nat) : Bool := decide (mtime ≤ s.now ∧ grace ≤ s.now - mtime)

/-- The mark phase: what retained operations mark, and what blob references are bound to. -/
def live : ExtTreeSet BlobId :=
  ExtTreeSet.ofList ((s.retained files).flatMap (s.marks files) ++ s.blobRefs)

/-- **Mark and sweep.** -/
def planBlobGc (grace : Nat) : BlobGcPlan :=
  let live := s.live files
  let unmarked := s.blobs.toList.filter fun entry => isBlobId entry.1 && decide (entry.1 ∉ live)
  { live
    toDelete := (unmarked.filter fun entry => s.oldEnough grace entry.2.mtime).map Prod.fst
    skippedWithinGrace :=
      (unmarked.filter fun entry => !s.oldEnough grace entry.2.mtime).map Prod.fst }

/-- Delete what a plan says. -/
def applyBlobGc (plan : BlobGcPlan) : FileStore := plan.toDelete.foldl deleteBlob s

end FileStore

/-! ## Programs on the store and its files -/

open LexLang.Concurrent

/-- **What can be seen of a run on files.** -/
inductive FileEvent
  /-- What is seen of the store, and when. -/
  | store (time : Nat) (event : Event)
  /-- A push puts its first blob. -/
  | began (time : Nat)
  /-- A push starts to check its manifest. -/
  | validating (manifest : BlobId)
  /-- A push has failed. -/
  | ended
  /-- A garbage collection, and the state it finds. -/
  | swept (grace : Nat) (found : FileStore)

/-- A program on the store and its files that may fail. -/
abbrev FileProg : Type → Type := ExceptT FileError (Prog FileStore FileEvent Bool)

variable {ρ : Type}

/-- One access to the files, seen as `note` says. The environment answers whether the I/O works. -/
def fileAccess (act : FileStore → Except FileError ρ × FileStore)
    (note : FileStore → Option FileEvent) : FileProg ρ :=
  ExceptT.mk <| .atom (fun ok s => if ok then (act s).2 else s)
    (fun ok s => if ok then note s else none)
    fun ok s => .ret (if ok then (act s).1 else .error (.store .io))

/-- A read. -/
def fileQuery (read : FileStore → Except FileError ρ) : FileProg ρ :=
  fileAccess (fun s => (read s, s)) fun _ => none

/-- A program on the store, as one on the store and its files. -/
def onStore (p : StoreProg ρ) : FileProg ρ :=
  ExceptT.mk <|
    (p.run.onPart FileStore.store (fun store s => { s with store })
      fun event s => .store s.now event) >>= fun result => .ret (result.mapError .store)

/-- **Put a blob**: nothing if there is a file; else write a temporary file and rename it. -/
def putBlobBytes (bytes : Bytes) (note : FileStore → Option FileEvent) : FileProg BlobId := do
  let id := files.sha256 bytes
  let present ← fileAccess (fun s => (.ok (s.blobs.contains id), s)) note
  if present then pure id
  else
    let mtime ← fileQuery fun s => .ok s.now
    fileAccess (fun s => (.ok (), { s with blobs := s.blobs.insert id ⟨bytes, mtime⟩ })) fun _ => none
    pure id

/-- The blobs that are missing, checked one after another. -/
def closureMissing : List BlobId → FileProg (List BlobId)
  | [] => pure []
  | id :: ids => do
    let present ← fileQuery fun s => .ok (s.hasBlob id)
    let missing ← closureMissing ids
    pure (if present then missing else id :: missing)

/-- Check the size of each entry's blob. -/
def checkSizes : List (String × Entry) → FileProg Unit
  | [] => pure ()
  | (path, e) :: entries => do
    let len ← fileQuery fun s => .ok (s.blobLen e.blob)
    let actual := len.getD 0
    if actual ≠ e.size then throw (.invalidManifest (.sizeMismatch path e.size actual))
    checkSizes entries

/-- **Check that a manifest may become a file set**: it is a manifest, and every blob is there and of
the size the manifest says. -/
def validateSetFiles (manifest : BlobId) : FileProg Manifest := do
  let present ← fileAccess (fun s => (.ok (s.hasBlob manifest), s)) fun _ => some (.validating manifest)
  if ¬ present then throw (.missingBlobs [manifest])
  let m ← fileQuery fun s => s.getManifest files manifest
  let missing ← closureMissing (sortedSet m.blobs)
  if missing ≠ [] then throw (.missingBlobs missing)
  checkSizes m.entries.toList
  pure m

variable (env : Env)

/-- Append the operation that sets the files. -/
def appendSetFiles (branch : BranchName) (manifest : BlobId) (intentId : Option IntentId) :
    StoreProg OpId := do
  let head ← readHead branch
  applyOperation env branch (stampIntent (.new (.setFiles manifest) head.toList) intentId) .filesOnly

/-- **Make a manifest the files of a branch**: validated first, then appended. -/
def applySetFilesChecked (branch : BranchName) (manifest : BlobId) (intentId : Option IntentId) :
    FileProg OpId := do
  let _ ← validateSetFiles files manifest
  onStore (appendSetFiles env branch manifest intentId)

/-- Run a call to its end; a failure is seen. -/
def orEnd (p : FileProg ρ) : FileProg ρ :=
  ExceptT.mk <| p.run >>= fun result =>
    match result with
    | .ok a => .ret (.ok a)
    | .error e => .atom (fun _ s => s) (fun _ _ => some .ended) fun _ _ => .ret (.error e)

/-- Put blobs one after another. -/
def putBlobs : List Bytes → FileProg Unit
  | [] => pure ()
  | bytes :: rest => do
    let _ ← putBlobBytes files bytes fun _ => none
    putBlobs rest

/-- **A push of files**: each blob, then the manifest, then the operation. -/
def pushFiles (branch : BranchName) (contents : List Bytes) (manifest : Bytes)
    (intentId : Option IntentId) : FileProg OpId := do
  match contents ++ [manifest] with
  | [] => pure ()
  | first :: rest =>
    let _ ← putBlobBytes files first fun s => some (.began s.now)
    putBlobs files rest
  orEnd (applySetFilesChecked files env branch (files.sha256 manifest) intentId)

/-- A pass of the garbage collection. -/
def collectBlobs (grace : Nat) : FileProg Unit :=
  fileAccess (fun s => (.ok (), s.applyBlobGc (s.planBlobGc files grace)))
    fun s => some (.swept grace s)

/-- Time passes. -/
def passTime : FileProg Unit :=
  fileAccess (fun s => (.ok (), { s with store := { s.store with clock := s.store.clock + 1 } }))
    fun _ => none

end LexLang
