/-
# LexLang.Api.OpsBatch — pushing operations

`POST /v1/ops/batch` (`ops_batch_handler` in `lex-api/src/handlers.rs`, with `check_set_files` in
`lex-api/src/sync_http.rs`): every record of the body is checked before any of them is persisted, and
`OpLog::put` skips the ones that are there.

`ends_opsBatchHandler` is all that is to be known of a call, whatever the environment answers: the log
has grown by the first records of a body that was admitted, and a refused body has changed nothing.
`Admitted` says what the handler looks at. It looks at `produces` of a `set_files` operation only.
-/
import LexLang.Concurrent.Fallible
import LexLang.Store.Files

namespace LexLang.Api

open LexLang.Vcs LexLang.Concurrent

/-! ## The handler -/

/-- What is wrong with a manifest. -/
inductive ManifestReason
  | error (e : ManifestError)
  | tooMany (entries limit : Nat)
  deriving DecidableEq

/-- Why a batch fails. -/
inductive BatchError
  | notRecords
  | opIdMismatch (supplied expected : OpId)
  | missingParent (opId missingParent : OpId)
  | invalidTransition (opId : OpId) (reason : String)
  | missingBlobs (opId : OpId) (ids : List BlobId)
  | invalidManifest (opId : OpId) (manifest : BlobId) (reason : ManifestReason)
  | internal (error : FileError)
  deriving DecidableEq

/-- The HTTP status. -/
def BatchError.status : BatchError → Nat
  | .notRecords => 400
  | .opIdMismatch _ _ => 409
  | .missingParent _ _ => 422
  | .invalidTransition _ _ => 422
  | .missingBlobs _ _ => 422
  | .invalidManifest _ _ _ => 422
  | .internal _ => 500

/-- The batch is refused, as opposed to failing half way. -/
def BatchError.IsRejection (e : BatchError) : Prop := e.status < 500

/-- What is reported of a batch. -/
structure BatchReport where
  received : Nat
  added : Nat
  skipped : Nat
  addedIds : List OpId
  deriving DecidableEq

/-- The handler's steps. The store is locked throughout. -/
abbrev BatchProg : Type → Type := ExceptT BatchError (Prog FileStore FileEvent Bool)

/-- A call on the store's files. -/
def onFiles {ρ : Type} (report : FileError → BatchError) (p : FileProg ρ) : BatchProg ρ :=
  ExceptT.mk <| p.run >>= fun result => .ret (result.mapError report)

/-- `log.get`. -/
def readRecord (id : OpId) : FileProg (Option OperationRecord) :=
  fileQuery fun s => .ok (s.store.log.get id)

/-- `log.put`. -/
def putRecord (record : OperationRecord) : FileProg Unit :=
  fileAccess
    (fun s => (.ok (), { s with store := { s.store with log := s.store.log.put record } }))
    fun _ => none

/-- The server's limits on files. -/
structure BlobLimits where
  maxManifestEntries : Nat

variable (digest : Digest) (files : FilesEnv) (limits : Option BlobLimits)

/-- How the error of a manifest is reported. -/
def setFilesError (opId : OpId) (manifest : BlobId) : FileError → BatchError
  | .missingBlobs ids => .missingBlobs opId ids
  | .invalidManifest e => .invalidManifest opId manifest (.error e)
  | other => .internal other

/-- **The check of a `set_files` record.** A record of any other kind passes. -/
def checkSetFiles (record : OperationRecord) : BatchProg Unit :=
  match record.op.kind with
  | .setFiles manifest =>
    if record.produces ≠ .filesOnly then
      throw (.invalidTransition record.opId "a set_files op must produce files_only")
    else do
      let m ← onFiles (setFilesError record.opId manifest) (validateSetFiles files manifest)
      match limits with
      | some l =>
        if l.maxManifestEntries < m.entries.size then
          throw (.invalidManifest record.opId manifest
            (.tooMany m.entries.size l.maxManifestEntries))
        else pure ()
      | none => pure ()
  | _ => pure ()

/-- Each parent is stored, or comes earlier in the batch. -/
def checkParentsKnown (batchIds : List OpId) (opId : OpId) : List OpId → BatchProg Unit
  | [] => pure ()
  | parent :: parents => do
    let known ← onFiles .internal (readRecord parent)
    if known.isNone ∧ parent ∉ batchIds then throw (.missingParent opId parent)
    else checkParentsKnown batchIds opId parents

/-- Check one record. -/
def checkRecord (batchIds : List OpId) (record : OperationRecord) : BatchProg Unit :=
  if record.op.opId digest ≠ record.opId then
    throw (.opIdMismatch record.opId (record.op.opId digest))
  else do
    checkParentsKnown batchIds record.opId record.op.parents
    checkSetFiles files limits record

/-- Check every record. -/
def checkBatch (batchIds : List OpId) : List OperationRecord → BatchProg Unit
  | [] => pure ()
  | record :: records => do
    checkRecord digest files limits batchIds record
    checkBatch (record.opId :: batchIds) records

/-- Persist every record; the ids of those that were not there. A record that cannot be read counts
as not there. -/
def persist : List OperationRecord → BatchProg (List OpId)
  | [] => pure []
  | record :: records => do
    let alreadyPresent ← (ExceptT.mk <| (readRecord record.opId).run >>= fun result =>
      .ret (.ok (result.toOption.join.isSome)) : BatchProg Bool)
    onFiles .internal (putRecord record)
    let addedIds ← persist records
    pure (if alreadyPresent then addedIds else record.opId :: addedIds)

/-- **`POST /v1/ops/batch`.** A body that is no array of records is `none`. -/
def opsBatchHandler (body : Option (List OperationRecord)) : BatchProg BatchReport :=
  match body with
  | none => throw .notRecords
  | some records => do
    checkBatch digest files limits [] records
    let addedIds ← persist records
    pure
      { received := records.length, added := addedIds.length
        skipped := records.length - addedIds.length, addedIds }

/-! ## What the handler admits -/

/-- **What is asked of the records of a batch**: each is filed under its hash, rests on what is stored
or comes before it, and a `set_files` operation changes files only. -/
def Admitted (log : OpLog) (batchIds : List OpId) : List OperationRecord → Prop
  | [] => True
  | record :: records =>
    (record.op.opId digest = record.opId ∧
      (∀ p ∈ record.op.parents, log.get p ≠ none ∨ p ∈ batchIds) ∧
      ∀ manifest, record.op.kind = .setFiles manifest → record.produces = .filesOnly) ∧
    Admitted log (record.opId :: batchIds) records

/-! ## Single steps -/

section Steps

variable {ρ : Type} {s : FileStore}

theorem ends_onFiles {report : FileError → BatchError} {p : FileProg ρ} {Q : Except BatchError ρ → FileStore → Prop} :
    Ends (onFiles report p) Q s ↔ Ends p (fun result after => Q (result.mapError report) after) s :=
  ends_map

/-- **One access**: nothing changes when the I/O fails. -/
theorem ends_fileAccess {act : FileStore → Except FileError ρ × FileStore}
    {note : FileStore → Option FileEvent} {Q : Except FileError ρ → FileStore → Prop} :
    Ends (fileAccess act note) Q s ↔ Q (.error (.store .io)) s ∧ Q (act s).1 (act s).2 := by
  constructor
  · exact fun h => ⟨h false, h true⟩
  · rintro ⟨hfalse, htrue⟩ (_ | _)
    · exact hfalse
    · exact htrue

theorem onlyReads_fileAccess (read : FileStore → Except FileError ρ)
    (note : FileStore → Option FileEvent) : OnlyReads (fileAccess (fun s => (read s, s)) note) :=
  fun _ => ends_fileAccess.mpr ⟨rfl, rfl⟩

theorem onlyReads_closureMissing (ids : List BlobId) : OnlyReads (closureMissing ids) := by
  induction ids with
  | nil => exact onlyReads_pure _
  | cons id ids ih =>
    exact (onlyReads_fileAccess _ _).bind fun present => ih.bind fun missing => onlyReads_pure _

theorem onlyReads_checkSizes (entries : List (String × Entry)) : OnlyReads (checkSizes entries) := by
  induction entries with
  | nil => exact onlyReads_pure _
  | cons entry entries ih =>
    obtain ⟨path, e⟩ := entry
    refine (onlyReads_fileAccess _ _).bind fun len => ?_
    exact onlyReads_guard ih

theorem onlyReads_validateSetFiles (manifest : BlobId) : OnlyReads (validateSetFiles files manifest) := by
  refine (onlyReads_fileAccess _ _).bind fun present => onlyReads_guard ?_
  refine (onlyReads_fileAccess _ _).bind fun m => ?_
  refine (onlyReads_closureMissing _).bind fun missing => onlyReads_guard ?_
  exact (onlyReads_checkSizes _).bind fun _ => onlyReads_pure _

end Steps

/-! ## A whole call -/

section Handler

variable {s : FileStore}

/-- The store, with more records put in its log. -/
def landed (s : FileStore) (records : List OperationRecord) : FileStore :=
  { s with store := { s.store with log := records.foldl OpLog.put s.store.log } }

theorem ends_checkSetFiles (record : OperationRecord) :
    Ends (checkSetFiles files limits record) (fun result after => after = s ∧
      (result = .ok () → ∀ manifest, record.op.kind = .setFiles manifest → record.produces = .filesOnly)) s := by
  unfold checkSetFiles
  split
  · next manifest hkind =>
    by_cases hproduces : record.produces = .filesOnly
    · rw [if_neg (not_not.mpr hproduces)]
      have hreads : OnlyReads (onFiles (setFilesError record.opId manifest)
          (validateSetFiles files manifest)) := (onlyReads_validateSetFiles files manifest).map _
      refine ends_bind.mpr ((hreads s).mono fun result after hafter => ?_)
      subst hafter
      cases result with
      | error e => exact ⟨rfl, by simp⟩
      | ok m =>
        simp only
        split
        · split
          · exact ⟨rfl, by simp⟩
          · exact ⟨rfl, fun _ _ _ => hproduces⟩
        · exact ⟨rfl, fun _ _ _ => hproduces⟩
    · rw [if_pos hproduces]
      exact ⟨rfl, by simp⟩
  · next hkind => exact ⟨rfl, fun _ manifest h => absurd h (hkind manifest)⟩

theorem ends_checkParentsKnown (batchIds : List OpId) (opId : OpId) (parents : List OpId) :
    Ends (checkParentsKnown batchIds opId parents) (fun result after => after = s ∧
      (result = .ok () → ∀ p ∈ parents, s.store.log.get p ≠ none ∨ p ∈ batchIds)) s := by
  induction parents with
  | nil => exact ⟨rfl, fun _ p hp => absurd hp List.not_mem_nil⟩
  | cons parent parents ih =>
    refine ends_bind.mpr (ends_onFiles.mpr (ends_fileAccess.mpr ⟨⟨rfl, nofun⟩, ?_⟩))
    show Ends (if (s.store.log.get parent).isNone ∧ parent ∉ batchIds then _ else _) _ s
    split
    · exact ⟨rfl, nofun⟩
    · next hknown =>
      refine ih.mono fun result after ⟨hafter, hparents⟩ => ⟨hafter, fun hok p hp => ?_⟩
      rcases List.mem_cons.mp hp with rfl | hp
      · rw [not_and_or, not_not, Option.isNone_iff_eq_none] at hknown
        exact hknown
      · exact hparents hok p hp

theorem ends_checkBatch (batchIds : List OpId) (records : List OperationRecord) :
    Ends (checkBatch digest files limits batchIds records) (fun result after => after = s ∧
      (result = .ok () → Admitted digest s.store.log batchIds records)) s := by
  induction records generalizing batchIds with
  | nil => exact ⟨rfl, fun _ => trivial⟩
  | cons record records ih =>
    have hrecord : Ends (checkRecord digest files limits batchIds record)
        (fun result after => after = s ∧ (result = .ok () →
          record.op.opId digest = record.opId ∧
            (∀ p ∈ record.op.parents, s.store.log.get p ≠ none ∨ p ∈ batchIds) ∧
            ∀ manifest, record.op.kind = .setFiles manifest → record.produces = .filesOnly)) s := by
      unfold checkRecord
      split
      · exact ⟨rfl, nofun⟩
      · next hid =>
        refine ends_bind.mpr ((ends_checkParentsKnown batchIds record.opId _).mono
          fun result after ⟨hafter, hparents⟩ => ?_)
        subst hafter
        cases result with
        | error e => exact ⟨rfl, nofun⟩
        | ok _ =>
          exact (ends_checkSetFiles files limits record).mono fun result after h =>
            ⟨h.1, fun hok => ⟨not_not.mp hid, hparents rfl, h.2 hok⟩⟩
    refine ends_bind.mpr (hrecord.mono fun result after ⟨hafter, hchecked⟩ => ?_)
    subst hafter
    cases result with
    | error e => exact ⟨rfl, nofun⟩
    | ok _ =>
      exact (ih (record.opId :: batchIds)).mono fun result after h =>
        ⟨h.1, fun hok => ⟨hchecked rfl, h.2 hok⟩⟩

/-- Persisting puts the records one after another, up to where the I/O fails. -/
theorem ends_persist (records : List OperationRecord) :
    Ends (persist records) (fun result after => ∃ n, after = landed s (records.take n) ∧
      ((∃ addedIds, result = .ok addedIds ∧ n = records.length) ∨ ∃ e, result = .error (.internal e))) s := by
  induction records generalizing s with
  | nil => exact ⟨0, rfl, .inl ⟨[], rfl, rfl⟩⟩
  | cons record records ih =>
    -- the put, and what follows it, whatever was read before
    have hput : ∀ alreadyPresent : Bool,
        Ends (do
          onFiles .internal (putRecord record)
          let addedIds ← persist records
          pure (if alreadyPresent then addedIds else record.opId :: addedIds) : BatchProg _)
        (fun result after => ∃ n, after = landed s ((record :: records).take n) ∧
          ((∃ addedIds, result = .ok addedIds ∧ n = (record :: records).length) ∨
            ∃ e, result = .error (.internal e))) s := by
      intro alreadyPresent
      refine ends_bind.mpr (ends_onFiles.mpr (ends_fileAccess.mpr
        ⟨⟨0, rfl, .inr ⟨_, rfl⟩⟩, ?_⟩))
      refine ends_bind.mpr (ih.mono fun result after ⟨n, hafter, hresult⟩ => ?_)
      subst hafter
      rcases hresult with ⟨addedIds, rfl, rfl⟩ | ⟨e, rfl⟩
      · exact ⟨records.length + 1, rfl, .inl ⟨_, rfl, rfl⟩⟩
      · exact ⟨n + 1, rfl, .inr ⟨e, rfl⟩⟩
    refine ends_bind.mpr (ends_map.mpr (ends_fileAccess.mpr ⟨?_, ?_⟩))
    · exact hput _
    · exact hput _

/-- **What a call does.** Either nothing, and it fails; or its body is admitted, and the log grows by
its first records: all of them, unless the I/O fails on the way. -/
theorem ends_opsBatchHandler (body : Option (List OperationRecord)) :
    Ends (opsBatchHandler digest files limits body) (fun result after => (after = s ∧ ∃ e, result = .error e) ∨
        ∃ records, body = some records ∧ Admitted digest s.store.log [] records ∧
          ∃ n, after = landed s (records.take n) ∧ ((n = records.length ∧ ∃ report, result = .ok report) ∨
              ∃ e, result = .error (.internal e))) s := by
  cases body with
  | none => exact .inl ⟨rfl, _, rfl⟩
  | some records =>
    refine ends_bind.mpr ((ends_checkBatch digest files limits [] records).mono
      fun result after ⟨hafter, hadmitted⟩ => ?_)
    subst hafter
    cases result with
    | error e => exact .inl ⟨rfl, e, rfl⟩
    | ok _ =>
      refine ends_bind.mpr ((ends_persist records).mono fun result after ⟨n, hland, hresult⟩ => ?_)
      rcases hresult with ⟨addedIds, rfl, hn⟩ | ⟨e, rfl⟩
      · exact .inr ⟨records, rfl, hadmitted rfl, n, hland, .inl ⟨hn, _, rfl⟩⟩
      · exact .inr ⟨records, rfl, hadmitted rfl, n, hland, .inr ⟨e, rfl⟩⟩

end Handler

end LexLang.Api
