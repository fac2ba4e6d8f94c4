/-
# LexLang.Vcs.MergeSession — a merge in flight: conflicts, resolutions, and the checks on them

A session (`lex-vcs/src/merge_session.rs`) starts from a merge's outcomes, takes resolutions in
batches, each checked against the program that all accepted ones give, and commits when none of its
conflicts is left. `Sound` is what holds after any calls; `checkedSession` is what a session owes:
nothing accepted that does not compose, verdicts that say what was stored, and a commit exactly when
everything is settled.
-/
import LexLang.Vcs.Merge

namespace LexLang.Vcs

open List Std

/-! ## Conflicts and resolutions -/

/-- A conflict's id is its sig. -/
abbrev ConflictId := SigId

/-- One conflict to be resolved: what the common ancestor, `dst` and `src` bind. -/
structure ConflictRecord where
  conflictId : ConflictId
  sigId : SigId
  kind : ConflictKind
  base : Option StageId
  ours : Option StageId
  theirs : Option StageId
  deriving DecidableEq

/-- A path in a files manifest. -/
abbrev FilePath := String

/-- What a manifest says of a path. -/
structure FileEntry where
  blob : BlobId
  mode : String
  size : UInt64
  deriving DecidableEq

/-- A path the two sides changed differently. -/
structure FileConflict where
  path : FilePath
  base : Option FileEntry
  ours : Option FileEntry
  theirs : Option FileEntry
  deriving DecidableEq

/-- The choice for a conflict. -/
inductive Resolution
  | takeOurs
  | takeTheirs
  /-- A new operation that supersedes both sides. -/
  | custom (op : Operation)
  /-- Left to a human. -/
  | defer
  deriving DecidableEq

/-- The choice for a file conflict. -/
inductive FileResolution
  | takeOurs
  | takeTheirs
  | defer
  deriving DecidableEq

/-- Why a resolution was rejected. -/
inductive ResolutionRejection
  | unknownConflict (conflictId : ConflictId)
  | customOpMissingParents (conflictId : ConflictId) (expected got : List OpId)
  | typeError (conflictId : ConflictId) (errors : List String)
  deriving DecidableEq

/-- Why a file resolution was rejected. -/
inductive FileResolutionRejection
  | unknownConflict (path : FilePath)
  deriving DecidableEq

/-- What is reported of one submission. -/
structure ResolveVerdict where
  conflictId : ConflictId
  accepted : Bool
  rejection : Option ResolutionRejection
  deriving DecidableEq

/-- What is reported of one file submission. -/
structure FileResolveVerdict where
  path : FilePath
  accepted : Bool
  rejection : Option FileResolutionRejection
  deriving DecidableEq

/-- Why a commit failed. -/
inductive CommitError
  | conflictsRemaining (ids : List ConflictId)
  | fileConflictsRemaining (paths : List FilePath)
  deriving DecidableEq

/-- What a commit hands over to be landed. -/
structure MergeCommitOutput where
  resolved : List (ConflictId × Resolution)
  resolvedFiles : List (FilePath × FileResolution)
  needsSetfiles : Bool
  deriving DecidableEq

/-- The type-checker a session is given: the errors of the program a head delta composes to. -/
abbrev ResolutionChecker := ExtTreeMap SigId (Option StageId) → List String

/-- The sig an operation binds in a merge, and what it binds it to. -/
def OperationKind.mergeTarget : OperationKind → Option (SigId × Option StageId)
  | .addFunction sigId stageId _ _ _ | .addType sigId stageId _ => some (sigId, some stageId)
  | .modifyBody sigId _ toStageId _ _ toSigId
  | .changeEffectSig sigId _ toStageId _ _ _ _ toSigId
  | .modifyType sigId _ toStageId toSigId => some (toSigId.getD sigId, some toStageId)
  | .replaceMatchArm sigId _ toStageId _ _ _ _ | .renameLocal sigId _ toStageId _ _ _ _ _
  | .inlineLet sigId _ toStageId _ _ _ _ => some (sigId, some toStageId)
  | .promote sigId _ winnerStageId _ _ _ _ => some (sigId, some winnerStageId)
  | .removeFunction sigId _ | .removeType sigId _ => some (sigId, none)
  | .renameSymbol _ toSig bodyStageId _ => some (toSig, some bodyStageId)
  | .addImport _ _ _ | .removeImport _ _ | .merge _ | .setFiles _ => none
  | .candidate _ _ => none

/-! ## Sessions -/

/-- **A merge in flight.** -/
structure MergeSession where
  mergeId : String
  srcHead : Option OpId
  dstHead : Option OpId
  lca : Option OpId
  autoResolved : List MergeOutcome
  conflicts : ExtTreeMap ConflictId ConflictRecord
  resolutions : ExtTreeMap ConflictId Resolution
  fileConflicts : ExtTreeMap FilePath FileConflict
  fileResolutions : ExtTreeMap FilePath FileResolution
  needsSetfiles : Bool

/-- The conflict an outcome is, `dst` being ours and `src` theirs. -/
def MergeOutcome.toConflict : MergeOutcome → Option ConflictRecord
  | .conflict sigId kind base theirs ours =>
    some { conflictId := sigId, sigId, kind, base, ours, theirs }
  | .both _ _ | .src _ _ | .dst _ _ => none

/-- The resolution settles its conflict. -/
def Resolution.settles : Option Resolution → Bool
  | some .takeOurs | some .takeTheirs | some (.custom _) => true
  | some .defer | none => false

/-- … and a file's. -/
def FileResolution.settles : Option FileResolution → Bool
  | some .takeOurs | some .takeTheirs => true
  | some .defer | none => false

namespace MergeSession

/-- **Start** from the outcomes of the merge of two heads. -/
def start (mergeId : String) (log : OpLog) (srcHead dstHead : Option OpId) : MergeSession :=
  let output := merge log srcHead dstHead
  { mergeId, srcHead, dstHead, lca := output.lca
    autoResolved := output.outcomes.filter fun outcome => outcome.toConflict.isNone
    conflicts := (output.outcomes.filterMap MergeOutcome.toConflict).foldl
      (fun conflicts record => conflicts.insert record.conflictId record) ∅
    resolutions := ∅, fileConflicts := ∅, fileResolutions := ∅, needsSetfiles := false }

/-- Attach the files dimension: once, right after the start. -/
def attachFileConflicts (session : MergeSession) (conflicts : List FileConflict)
    (needsSetfiles : Bool) : MergeSession :=
  { session with
    fileConflicts := conflicts.foldl (fun map conflict => map.insert conflict.path conflict) ∅
    needsSetfiles }

/-- The conflicts without a settling resolution. -/
def remainingConflicts (session : MergeSession) : List ConflictRecord :=
  (session.conflicts.toList.map Prod.snd).filter fun record =>
    !Resolution.settles session.resolutions[record.conflictId]?

/-- The file conflicts without a settling resolution. -/
def remainingFileConflicts (session : MergeSession) : List FileConflict :=
  (session.fileConflicts.toList.map Prod.snd).filter fun conflict =>
    !FileResolution.settles session.fileResolutions[conflict.path]?

/-- The structural check of one resolution; `none` is fine. -/
def validateResolution (session : MergeSession) (conflictId : ConflictId)
    (resolution : Resolution) : Option ResolutionRejection :=
  if conflictId ∉ session.conflicts then some (.unknownConflict conflictId)
  else
    match resolution with
    | .custom op =>
      if op.parents.length < 2 then
        some (.customOpMissingParents conflictId ["ours-op-id", "theirs-op-id"] op.parents)
      else none
    | .takeOurs | .takeTheirs | .defer => none

/-- The delta of one conflict under the resolutions. -/
def projectConflict (resolutions : ExtTreeMap ConflictId Resolution)
    (delta : ExtTreeMap SigId (Option StageId)) (entry : ConflictId × ConflictRecord) :
    ExtTreeMap SigId (Option StageId) :=
  match resolutions[entry.1]? with
  | some .takeTheirs => delta.insert entry.2.sigId entry.2.theirs
  | some (.custom op) =>
    match op.kind.mergeTarget with
    | some (sig, stage) => delta.insert sig stage
    | none => delta
  | some .takeOurs | some .defer | none => delta

/-- The delta of one outcome: `src`'s own change. -/
def projectOutcome (delta : ExtTreeMap SigId (Option StageId)) (outcome : MergeOutcome) :
    ExtTreeMap SigId (Option StageId) :=
  match outcome with
  | .src sigId stageId => delta.insert sigId stageId
  | .both _ _ | .dst _ _ | .conflict _ _ _ _ _ => delta

/-- **What a merge with these resolutions changes in `dst`'s head.** -/
def projectedDelta (session : MergeSession) (resolutions : ExtTreeMap ConflictId Resolution) :
    ExtTreeMap SigId (Option StageId) :=
  session.conflicts.toList.foldl (projectConflict resolutions)
    (session.autoResolved.foldl projectOutcome ∅)

/-- **Submit one resolution**: checked for its shape, then for the program it gives. -/
def submit (checker : ResolutionChecker) (session : MergeSession)
    (submission : ConflictId × Resolution) : MergeSession × ResolveVerdict :=
  let (conflictId, resolution) := submission
  match session.validateResolution conflictId resolution with
  | some rejection => (session, { conflictId, accepted := false, rejection := some rejection })
  | none =>
    let trial := session.resolutions.insert conflictId resolution
    let errors := checker (session.projectedDelta trial)
    if errors ≠ [] then
      (session,
        { conflictId, accepted := false, rejection := some (.typeError conflictId errors) })
    else
      ({ session with resolutions := trial }, { conflictId, accepted := true, rejection := none })

/-- Submit one file resolution. -/
def submitFile (session : MergeSession) (submission : FilePath × FileResolution) :
    MergeSession × FileResolveVerdict :=
  let (path, resolution) := submission
  if path ∉ session.fileConflicts then
    (session, { path, accepted := false, rejection := some (.unknownConflict path) })
  else
    ({ session with fileResolutions := session.fileResolutions.insert path resolution },
      { path, accepted := true, rejection := none })

/-- A batch, one submission after the other, with a verdict each. -/
def batch {α β : Type} (submitOne : MergeSession → α → MergeSession × β) (session : MergeSession) :
    List α → MergeSession × List β
  | [] => (session, [])
  | submission :: submissions =>
    let (session, verdict) := submitOne session submission
    let (session, verdicts) := batch submitOne session submissions
    (session, verdict :: verdicts)

/-- **Submit resolutions**, type-checking each. -/
def resolveChecked (session : MergeSession) (resolutions : List (ConflictId × Resolution))
    (checker : ResolutionChecker) : MergeSession × List ResolveVerdict :=
  session.batch (submit checker) resolutions

/-- Submit file resolutions. -/
def resolveFiles (session : MergeSession) (resolutions : List (FilePath × FileResolution)) :
    MergeSession × List FileResolveVerdict :=
  session.batch submitFile resolutions

/-- **Commit**: sig conflicts are looked at before file conflicts. -/
def commit (session : MergeSession) : Except CommitError MergeCommitOutput :=
  let unresolved := session.conflicts.keys.filter fun id =>
    !Resolution.settles session.resolutions[id]?
  if unresolved ≠ [] then .error (.conflictsRemaining unresolved)
  else
    let unresolvedFiles := session.fileConflicts.keys.filter fun path =>
      !FileResolution.settles session.fileResolutions[path]?
    if unresolvedFiles ≠ [] then .error (.fileConflictsRemaining unresolvedFiles)
    else
      .ok
        { resolved := session.resolutions.toList.insertionSort fun a b => a.1 ≤ b.1
          resolvedFiles := session.fileResolutions.toList.insertionSort fun a b => a.1 ≤ b.1
          needsSetfiles := session.needsSetfiles }

/-! ## Calls -/

/-- One call on a session. -/
inductive Call
  | resolveChecked (resolutions : List (ConflictId × Resolution))
  | resolveFiles (resolutions : List (FilePath × FileResolution))

/-- One call: the session it leaves, and the sig verdicts it reports. -/
def call (checker : ResolutionChecker) (session : MergeSession) :
    Call → MergeSession × List ResolveVerdict
  | .resolveChecked resolutions => session.resolveChecked resolutions checker
  | .resolveFiles resolutions => ((session.resolveFiles resolutions).1, [])

/-- A run of calls: the session it leaves, and every sig verdict reported. -/
def run (checker : ResolutionChecker) (session : MergeSession) :
    List Call → MergeSession × List ResolveVerdict
  | [] => (session, [])
  | first :: calls =>
    let (session, verdicts) := session.call checker first
    let (session, more) := session.run checker calls
    (session, verdicts ++ more)

/-! ## One submission -/

section Submit

variable {checker : ResolutionChecker} {session : MergeSession}

theorem mem_of_validate {conflictId : ConflictId} {resolution : Resolution}
    (h : session.validateResolution conflictId resolution = none) : conflictId ∈ session.conflicts := by
  by_contra hno
  unfold validateResolution at h
  rw [if_pos hno] at h
  cases h

/-- The submission can be taken: its shape is right and the program it gives has no errors. -/
def Composes (checker : ResolutionChecker) (session : MergeSession)
    (submission : ConflictId × Resolution) : Prop :=
  session.validateResolution submission.1 submission.2 = none ∧
    checker (session.projectedDelta (session.resolutions.insert submission.1 submission.2)) = []

/-- The session with one more resolution. -/
def record (session : MergeSession) (submission : ConflictId × Resolution) : MergeSession :=
  { session with resolutions := session.resolutions.insert submission.1 submission.2 }

/-- **What a submission does**: one that composes is stored and accepted, another one changes nothing
and is rejected with a reason. -/
theorem submit_cases (checker : ResolutionChecker) (session : MergeSession) (submission : ConflictId × Resolution) :
    (session.Composes checker submission ∧ session.submit checker submission = (session.record submission,
            { conflictId := submission.1, accepted := true, rejection := none })) ∨
      (¬ session.Composes checker submission ∧
        ∃ rejection, session.submit checker submission =
          (session,
            { conflictId := submission.1, accepted := false, rejection := some rejection })) := by
  unfold submit Composes record
  cases hvalid : session.validateResolution submission.1 submission.2 with
  | some rejection =>
    refine .inr ⟨fun h => by simp at h, rejection, ?_⟩
    simp only [hvalid]
  | none =>
    simp only [hvalid]
    by_cases herrors :
        checker (session.projectedDelta (session.resolutions.insert submission.1 submission.2)) = []
    · refine .inl ⟨⟨trivial, herrors⟩, ?_⟩
      rw [if_neg (not_not.mpr herrors)]
    · refine .inr ⟨fun h => herrors h.2, ?_⟩
      rw [if_pos herrors]
      exact ⟨_, rfl⟩

theorem submitFile_cases (session : MergeSession) (submission : FilePath × FileResolution) :
    (submission.1 ∈ session.fileConflicts ∧
        session.submitFile submission =
          ({ session with
              fileResolutions := session.fileResolutions.insert submission.1 submission.2 },
            { path := submission.1, accepted := true, rejection := none })) ∨
      (submission.1 ∉ session.fileConflicts ∧
        session.submitFile submission =
          (session,
            { path := submission.1, accepted := false
              rejection := some (.unknownConflict submission.1) })) := by
  obtain ⟨path, resolution⟩ := submission
  unfold submitFile
  by_cases h : path ∈ session.fileConflicts
  · exact .inl ⟨h, by simp [h]⟩
  · exact .inr ⟨h, by simp [h]⟩

end Submit

/-! ## The invariant -/

/-- **What holds after any calls**: conflicts are filed under their own names, only conflicts are
resolved, and once something was accepted the accepted set composes. -/
structure Sound (checker : ResolutionChecker) (session : MergeSession) (accepted : Prop) : Prop where
  keyed : ∀ (id : ConflictId) (record : ConflictRecord), session.conflicts[id]? = some record →
    record.conflictId = id
  keyedFiles : ∀ (path : FilePath) (conflict : FileConflict),
    session.fileConflicts[path]? = some conflict → conflict.path = path
  known : ∀ id ∈ session.resolutions, id ∈ session.conflicts
  knownFiles : ∀ path ∈ session.fileResolutions, path ∈ session.fileConflicts
  composes : accepted → checker (session.projectedDelta session.resolutions) = []

namespace Sound

variable {checker : ResolutionChecker} {session : MergeSession} {accepted : Prop}

theorem keyed_foldl {α : Type} (name : α → String) : ∀ (entries : List α)
    (map : ExtTreeMap String α),
    (∀ (k : String) (entry : α), map[k]? = some entry → name entry = k) →
    ∀ (k : String) (entry : α),
      (entries.foldl (fun map entry => map.insert (name entry) entry) map)[k]? = some entry →
        name entry = k
  | [], _, h => h
  | first :: entries, map, h => keyed_foldl name entries _ fun k entry hentry => by
    rw [Std.ExtTreeMap.getElem?_insert] at hentry
    split at hentry
    · rename_i hsame
      obtain rfl := Option.some.inj hentry
      exact Std.LawfulEqCmp.compare_eq_iff_eq.mp hsame
    · exact h k entry hentry

theorem begun (checker : ResolutionChecker) (mergeId : String) (log : OpLog)
    (srcHead dstHead : Option OpId) (fileConflicts : List FileConflict) (needsSetfiles : Bool) :
    Sound checker ((start mergeId log srcHead dstHead).attachFileConflicts fileConflicts needsSetfiles) False where
  keyed := keyed_foldl ConflictRecord.conflictId _ ∅ (by simp)
  keyedFiles := keyed_foldl FileConflict.path _ ∅ (by simp)
  known := by simp [start, attachFileConflicts]
  knownFiles := by simp [start, attachFileConflicts]
  composes := False.elim

/-- **A submission keeps the invariant.** -/
theorem submit (h : Sound checker session accepted) (submission : ConflictId × Resolution) :
    Sound checker (session.submit checker submission).1
      (accepted ∨ (session.submit checker submission).2.accepted = true) := by
  rcases submit_cases checker session submission with ⟨hcomposes, heq⟩ | ⟨_, rejection, heq⟩
  · rw [heq]
    refine ⟨h.keyed, h.keyedFiles, fun id hid => ?_, h.knownFiles, fun _ => hcomposes.2⟩
    rcases Std.ExtTreeMap.mem_insert.mp hid with hsame | hold
    · rw [← Std.LawfulEqCmp.compare_eq_iff_eq.mp hsame]
      exact mem_of_validate hcomposes.1
    · exact h.known id hold
  · rw [heq]
    exact ⟨h.keyed, h.keyedFiles, h.known, h.knownFiles, fun hacc => h.composes (by simpa using hacc)⟩

theorem submitFile (h : Sound checker session accepted) (submission : FilePath × FileResolution) :
    Sound checker (session.submitFile submission).1 accepted := by
  rcases submitFile_cases session submission with ⟨hmem, heq⟩ | ⟨_, heq⟩
  · rw [heq]
    refine ⟨h.keyed, h.keyedFiles, h.known, fun path hpath => ?_, h.composes⟩
    rcases Std.ExtTreeMap.mem_insert.mp hpath with hsame | hold
    · rw [← Std.LawfulEqCmp.compare_eq_iff_eq.mp hsame]
      exact hmem
    · exact h.knownFiles path hold
  · rw [heq]
    exact h

theorem imp (h : Sound checker session accepted) {accepted' : Prop} (himp : accepted' → accepted) :
    Sound checker session accepted' :=
  ⟨h.keyed, h.keyedFiles, h.known, h.knownFiles, fun hacc => h.composes (himp hacc)⟩

theorem resolveChecked : ∀ (submissions : List (ConflictId × Resolution)) {session : MergeSession}
    {accepted : Prop}, Sound checker session accepted →
    Sound checker (session.resolveChecked submissions checker).1
      (accepted ∨ ∃ verdict ∈ (session.resolveChecked submissions checker).2,
        verdict.accepted = true)
  | [], _, _, h => h.imp (by simp [MergeSession.resolveChecked, batch])
  | submission :: submissions, session, accepted, h => by
    refine (resolveChecked submissions (h.submit submission)).imp ?_
    rintro (hacc | ⟨verdict, hmem, hacc⟩)
    · exact .inl (.inl hacc)
    · rcases mem_cons.mp hmem with rfl | hmem
      · exact .inl (.inr hacc)
      · exact .inr ⟨verdict, hmem, hacc⟩

theorem resolveFiles : ∀ (submissions : List (FilePath × FileResolution)) {session : MergeSession},
    Sound checker session accepted →
    Sound checker (session.resolveFiles submissions).1 accepted
  | [], _, h => h
  | submission :: submissions, _, h => resolveFiles submissions (h.submitFile submission)

/-- **A run keeps it.** -/
theorem run : ∀ (calls : List Call) {session : MergeSession} {accepted : Prop},
    Sound checker session accepted →
    Sound checker (session.run checker calls).1
      (accepted ∨ ∃ verdict ∈ (session.run checker calls).2, verdict.accepted = true)
  | [], _, _, h => h.imp (by simp [MergeSession.run])
  | .resolveChecked resolutions :: calls, session, accepted, h => by
    refine (run calls (h.resolveChecked resolutions)).imp ?_
    rintro (hacc | ⟨verdict, hmem, hacc⟩)
    · exact .inl (.inl hacc)
    · rcases mem_append.mp hmem with hmem | hmem
      · exact .inl (.inr ⟨verdict, hmem, hacc⟩)
      · exact .inr ⟨verdict, hmem, hacc⟩
  | .resolveFiles resolutions :: calls, session, accepted, h =>
    run calls (h.resolveFiles resolutions)

end Sound

/-! ## Commit -/

section Commit

variable {α β : Type}

variable {map : ExtTreeMap String α}

/-- What is left of a keyed map, looked up by the entries' own names, is what is left by key. -/
theorem filter_unsettled_eq_nil_iff (name : α → String)
    (hkeyed : ∀ (k : String) (entry : α), map[k]? = some entry → name entry = k) (settled : String → Bool) :
    ((map.toList.map Prod.snd).filter fun entry => !settled (name entry)) = [] ↔ ∀ k ∈ map, settled k = true := by
  rw [filter_eq_nil_iff, forall_mem_map]
  constructor
  · intro hall k hk
    obtain ⟨entry, hentry⟩ := Option.isSome_iff_exists.mp
      (Std.ExtTreeMap.isSome_getElem?_iff_mem.mpr hk)
    have := hall (k, entry) (Std.ExtTreeMap.mem_toList_iff_getElem?_eq_some.mpr hentry)
    rw [hkeyed k entry hentry] at this
    simpa using this
  · rintro hall ⟨k, entry⟩ hmem
    have hentry := Std.ExtTreeMap.mem_toList_iff_getElem?_eq_some.mp hmem
    have hk : k ∈ map := Std.ExtTreeMap.isSome_getElem?_iff_mem.mp (by rw [hentry]; rfl)
    rw [hkeyed k entry hentry, hall k hk]
    decide

theorem filter_keys_eq_nil_iff (settled : String → Bool) :
    (map.keys.filter fun k => !settled k) = [] ↔ ∀ k ∈ map, settled k = true := by
  simp

variable {entries : ExtTreeMap String α}

theorem map_fst_sorted_perm {map : ExtTreeMap String β} (hkeys : ∀ k, k ∈ entries ↔ k ∈ map) :
    ((entries.toList.insertionSort fun a b => a.1 ≤ b.1).map Prod.fst).Perm map.keys := by
  refine ((perm_insertionSort _ _).map Prod.fst).trans ?_
  rw [Std.ExtTreeMap.map_fst_toList_eq_keys]
  exact (perm_ext_iff_of_nodup Std.ExtTreeMap.nodup_keys Std.ExtTreeMap.nodup_keys).mpr
    fun k => by rw [Std.ExtTreeMap.mem_keys, Std.ExtTreeMap.mem_keys, hkeys]

theorem mem_sorted {k : String} {entry : α} :
    (k, entry) ∈ entries.toList.insertionSort (fun a b => a.1 ≤ b.1) ↔ entries[k]? = some entry := by
  rw [(perm_insertionSort _ _).mem_iff, Std.ExtTreeMap.mem_toList_iff_getElem?_eq_some]

variable {checker : ResolutionChecker} {session : MergeSession} {accepted : Prop}

/-- **A commit succeeds exactly when nothing is left**; then it lists one settling resolution for
each conflict and each file conflict, and nothing else. -/
structure CommitsWhenSettled (session : MergeSession) : Prop where
  succeeds : (∃ output, session.commit = .ok output) ↔
    session.remainingConflicts = [] ∧ session.remainingFileConflicts = []
  resolved : ∀ output, session.commit = .ok output →
    (output.resolved.map Prod.fst).Perm session.conflicts.keys ∧
      ∀ entry ∈ output.resolved,
        session.resolutions[entry.1]? = some entry.2 ∧ entry.2 ≠ .defer
  resolvedFiles : ∀ output, session.commit = .ok output →
    (output.resolvedFiles.map Prod.fst).Perm session.fileConflicts.keys ∧
      ∀ entry ∈ output.resolvedFiles,
        session.fileResolutions[entry.1]? = some entry.2 ∧ entry.2 ≠ .defer

theorem Sound.commitsWhenSettled (h : Sound checker session accepted) : session.CommitsWhenSettled := by
  have hleft : session.remainingConflicts = [] ↔ _ := filter_unsettled_eq_nil_iff
    ConflictRecord.conflictId h.keyed fun id => Resolution.settles session.resolutions[id]?
  have hleftFiles : session.remainingFileConflicts = [] ↔ _ := filter_unsettled_eq_nil_iff
    FileConflict.path h.keyedFiles fun path =>
      FileResolution.settles session.fileResolutions[path]?
  have hcommit : ∀ output, session.commit = .ok output →
      session.remainingConflicts = [] ∧ session.remainingFileConflicts = [] ∧
        output.resolved = session.resolutions.toList.insertionSort (fun a b => a.1 ≤ b.1) ∧
        output.resolvedFiles =
          session.fileResolutions.toList.insertionSort (fun a b => a.1 ≤ b.1) := by
    intro output hok
    unfold commit at hok
    simp only at hok
    split at hok
    · cases hok
    · rename_i hnone
      split at hok
      · cases hok
      · rename_i hnoneFiles
        obtain rfl := Except.ok.inj hok
        exact ⟨hleft.mpr ((filter_keys_eq_nil_iff _).mp (not_not.mp hnone)),
          hleftFiles.mpr ((filter_keys_eq_nil_iff _).mp (not_not.mp hnoneFiles)), rfl, rfl⟩
  refine ⟨⟨fun ⟨output, hok⟩ => ⟨(hcommit output hok).1, (hcommit output hok).2.1⟩, ?_⟩,
    fun output hok => ?_, fun output hok => ?_⟩
  · rintro ⟨hnone, hnoneFiles⟩
    unfold commit
    rw [if_neg (not_not.mpr ((filter_keys_eq_nil_iff _).mpr (hleft.mp hnone))),
      if_neg (not_not.mpr ((filter_keys_eq_nil_iff _).mpr (hleftFiles.mp hnoneFiles)))]
    exact ⟨_, rfl⟩
  · obtain ⟨hnone, _, hresolved, _⟩ := hcommit output hok
    have hsettled := hleft.mp hnone
    rw [hresolved]
    refine ⟨map_fst_sorted_perm fun id => ⟨h.known id, fun hid => ?_⟩, ?_⟩
    · have := hsettled id hid
      by_contra hno
      rw [Std.ExtTreeMap.getElem?_eq_none hno] at this
      cases this
    · rintro ⟨id, resolution⟩ hmem
      have hstored := mem_sorted.mp hmem
      refine ⟨hstored, ?_⟩
      rintro rfl
      have := hsettled id (h.known id (Std.ExtTreeMap.isSome_getElem?_iff_mem.mp (by rw [hstored]; rfl)))
      rw [hstored] at this
      cases this
  · obtain ⟨_, hnone, _, hresolved⟩ := hcommit output hok
    have hsettled := hleftFiles.mp hnone
    rw [hresolved]
    refine ⟨map_fst_sorted_perm fun path => ⟨h.knownFiles path, fun hpath => ?_⟩, ?_⟩
    · have := hsettled path hpath
      by_contra hno
      rw [Std.ExtTreeMap.getElem?_eq_none hno] at this
      cases this
    · rintro ⟨path, resolution⟩ hmem
      have hstored := mem_sorted.mp hmem
      refine ⟨hstored, ?_⟩
      rintro rfl
      have := hsettled path
        (h.knownFiles path (Std.ExtTreeMap.isSome_getElem?_iff_mem.mp (by rw [hstored]; rfl)))
      rw [hstored] at this
      cases this

end Commit

/-! ## What a session owes -/

section Owes

variable {checker : ResolutionChecker}

/-- What a batch's verdicts say is stored: the accepted resolutions, in order. -/
def stored (resolutions : ExtTreeMap ConflictId Resolution)
    (report : List ((ConflictId × Resolution) × ResolveVerdict)) :
    ExtTreeMap ConflictId Resolution :=
  report.foldl (fun resolutions entry =>
    if entry.2.accepted then resolutions.insert entry.1.1 entry.1.2 else resolutions) resolutions

/-- **Verdicts are faithful**: one for each submission and named by it, with a reason exactly when
it is rejected; what is stored is what they say, and nothing else of the session changes. -/
def Faithful (checker : ResolutionChecker) (session : MergeSession)
    (submissions : List (ConflictId × Resolution)) : Prop :=
  let verdicts := (session.resolveChecked submissions checker).2
  verdicts.map ResolveVerdict.conflictId = submissions.map Prod.fst ∧
    (∀ verdict ∈ verdicts, verdict.accepted = true ↔ verdict.rejection = none) ∧
    (session.resolveChecked submissions checker).1 =
      { session with resolutions := stored session.resolutions (submissions.zip verdicts) }

theorem faithful (checker : ResolutionChecker) : ∀ (submissions : List (ConflictId × Resolution))
    (session : MergeSession), session.Faithful checker submissions
  | [], _ => ⟨rfl, by simp [resolveChecked, batch], rfl⟩
  | submission :: submissions, session => by
    obtain ⟨hnames, hreasons, hstored⟩ :=
      faithful checker submissions (session.submit checker submission).1
    have hfirst : (session.submit checker submission).2.conflictId = submission.1 ∧
        ((session.submit checker submission).2.accepted = true ↔
          (session.submit checker submission).2.rejection = none) ∧
        (session.submit checker submission).1 =
          { session with
            resolutions := stored session.resolutions
              [(submission, (session.submit checker submission).2)] } := by
      rcases submit_cases checker session submission with ⟨_, heq⟩ | ⟨_, rejection, heq⟩
      · rw [heq]
        exact ⟨rfl, by simp, rfl⟩
      · rw [heq]
        exact ⟨rfl, by simp, rfl⟩
    refine ⟨?_, ?_, ?_⟩
    · show (session.submit checker submission).2.conflictId :: _ = submission.1 :: _
      rw [hfirst.1]
      exact congrArg _ hnames
    · intro verdict hmem
      rcases mem_cons.mp hmem with rfl | hmem
      · exact hfirst.2.1
      · exact hreasons verdict hmem
    · show ((session.submit checker submission).1.resolveChecked submissions checker).1 =
        { session with
          resolutions := stored session.resolutions
            ((submission, (session.submit checker submission).2) :: submissions.zip
              ((session.submit checker submission).1.resolveChecked submissions checker).2) }
      rw [hstored]
      generalize ((session.submit checker submission).1.resolveChecked submissions checker).2 =
        verdicts
      rw [hfirst.2.2]
      rfl

/-- **What a session owes** after calls that reported these sig verdicts. -/
structure Owes (checker : ResolutionChecker) (session : MergeSession)
    (verdicts : List ResolveVerdict) : Prop where
  composes : (∀ verdict ∈ verdicts, verdict.accepted = false) ∨
    checker (session.projectedDelta session.resolutions) = []
  known : ∀ id ∈ session.resolutions, id ∈ session.conflicts
  accepts : ∀ submission, session.Composes checker submission →
    (session.submit checker submission).2.accepted = true ∧
      (session.submit checker submission).1 = session.record submission
  rejects : ∀ submission, ¬ session.Composes checker submission →
    (session.submit checker submission).2.accepted = false ∧
      (session.submit checker submission).1 = session
  faithful : ∀ submissions, session.Faithful checker submissions
  commits : session.CommitsWhenSettled

/-- **A checked session pays what it owes**: from any merge, with any file conflicts attached, after
any calls in any order, whatever the checker. -/
theorem checkedSession_owes (checker : ResolutionChecker) (mergeId : String) (log : OpLog)
    (srcHead dstHead : Option OpId) (fileConflicts : List FileConflict) (needsSetfiles : Bool)
    (calls : List Call) :
    let reached := ((start mergeId log srcHead dstHead).attachFileConflicts fileConflicts
      needsSetfiles).run checker calls
    reached.1.Owes checker reached.2 := by
  intro reached
  have h := (Sound.begun checker mergeId log srcHead dstHead fileConflicts needsSetfiles).run calls
  refine ⟨?_, h.known, fun submission hcomposes => ?_, fun submission hno => ?_,
    fun submissions => faithful checker submissions _, h.commitsWhenSettled⟩
  · by_cases hacc : ∃ verdict ∈ reached.2, verdict.accepted = true
    · exact .inr (h.composes (.inr hacc))
    · refine .inl fun verdict hmem => ?_
      by_contra haccepted
      exact hacc ⟨verdict, hmem, Bool.eq_true_of_not_eq_false haccepted⟩
  · rcases submit_cases checker reached.1 submission with ⟨_, heq⟩ | ⟨hno, _⟩
    · rw [heq]
      exact ⟨rfl, rfl⟩
    · exact absurd hcomposes hno
  · rcases submit_cases checker reached.1 submission with ⟨hcomposes, _⟩ | ⟨_, rejection, heq⟩
    · exact absurd hcomposes hno
    · rw [heq]
      exact ⟨rfl, rfl⟩

end Owes

end MergeSession

end LexLang.Vcs
