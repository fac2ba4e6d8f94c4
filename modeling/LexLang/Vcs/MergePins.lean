/-
# LexLang.Vcs.MergePins — what a merge lands, and what was reviewed

A session checks each resolution against `dst`'s head with its delta laid over (`projected_delta` in
`lex-vcs/src/merge_session.rs`). What lands is a merge operation whose entries pin every sig the merge
decided (`Store::merge_pins` in `lex-store/src/branches.rs`, and `merge_commit_handler`), and the merged
head is the replay of both histories and these entries.

`merged_as_reviewed_iff` says when the two are one map.
-/
import LexLang.Vcs.MergeSession

namespace LexLang.Vcs

open List Option Std Std.ExtTreeMap

/-! ## Entries -/

section Entries

variable {β : Type}

/-- Insert entries, one after another. -/
def insertAll (map : ExtTreeMap String β) (entries : List (String × β)) :
    ExtTreeMap String β :=
  entries.foldl (fun map entry => map.insert entry.1 entry.2) map

theorem insertAll_append (map : ExtTreeMap String β) (first second : List (String × β)) :
    insertAll map (first ++ second) = insertAll (insertAll map first) second := by
  unfold insertAll
  rw [foldl_append]

theorem getElem?_insertAll (entries : List (String × β)) (map : ExtTreeMap String β)
    (key : String) : (insertAll map entries)[key]? = (entries.reverse.lookup key).or map[key]? := by
  induction entries using reverseRecOn with
  | nil => rfl
  | append_singleton entries entry ih =>
    have hlast : insertAll map (entries ++ [entry]) =
        (insertAll map entries).insert entry.1 entry.2 := insertAll_append map entries [entry]
    rw [hlast, Std.ExtTreeMap.getElem?_insert, ih, reverse_append]
    show _ = ((entry :: entries.reverse).lookup key).or map[key]?
    rw [lookup_cons]
    by_cases hkey : key = entry.1
    · simp [hkey]
    · simp [beq_false_of_ne hkey, Ne.symm hkey]

variable {entries : List (String × β)}

theorem getElem?_insertAll_of_mem {key : String} {value : β}
    (hmem : (key, value) ∈ entries) (hagree : ∀ other, (key, other) ∈ entries → other = value)
    (map : ExtTreeMap String β) : (insertAll map entries)[key]? = some value := by
  rw [getElem?_insertAll]
  cases hlookup : entries.reverse.lookup key with
  | none =>
    have hnone := List.lookup_eq_none_iff.mp hlookup (key, value) (mem_reverse.mpr hmem)
    simp at hnone
  | some found =>
    have hfound : (key, found) ∈ entries := by
      obtain ⟨before, after, hsplit, -⟩ := lookup_eq_some_iff.mp hlookup
      rw [← mem_reverse, hsplit]
      simp
    rw [hagree found hfound, some_or]

theorem getElem?_insertAll_of_notMem {key : String}
    (hno : ∀ value, (key, value) ∉ entries) (map : ExtTreeMap String β) :
    (insertAll map entries)[key]? = map[key]? := by
  rw [getElem?_insertAll]
  cases hlookup : entries.reverse.lookup key with
  | none => rw [none_or]
  | some found =>
    obtain ⟨before, after, hsplit, -⟩ := lookup_eq_some_iff.mp hlookup
    refine absurd ?_ (hno found)
    rw [← mem_reverse, hsplit]
    simp

/-- Entries that are the values of a partial function make it a map. -/
theorem getElem?_insertAll_eq {f : String → Option β}
    (h : ∀ key value, (key, value) ∈ entries ↔ f key = some value) (key : String) :
    (insertAll ∅ entries)[key]? = f key := by
  cases hkey : f key with
  | some value =>
    refine getElem?_insertAll_of_mem ((h key value).mpr hkey) (fun other hother => ?_) ∅
    exact some.inj (((h key other).mp hother).symm.trans hkey)
  | none =>
    have hno : ∀ value, (key, value) ∉ entries := fun value hmem => by
      have hsome := (h key value).mp hmem
      rw [hkey] at hsome
      cases hsome
    rw [getElem?_insertAll_of_notMem hno]
    simp

theorem foldl_eq_insertAll {α : Type} {f : ExtTreeMap String β → α → ExtTreeMap String β}
    {g : α → List (String × β)} (h : ∀ map a, f map a = insertAll map (g a)) (l : List α)
    (map : ExtTreeMap String β) : l.foldl f map = insertAll map (l.flatMap g) := by
  induction l generalizing map with
  | nil => rfl
  | cons a l ih => rw [foldl_cons, ih, h, flatMap_cons, insertAll_append]

end Entries

/-! ## What lands -/

/-- Entries of a merge: a stage for each sig, or its removal. -/
abbrev MergeEntries := ExtTreeMap SigId (Option StageId)

/-- Pin a sig the merge decided itself. -/
def pinOutcome (dst : HeadMap) (entries : MergeEntries) : MergeOutcome → MergeEntries
  | .src sigId stageId => entries.insert sigId stageId
  | .dst sigId _ => entries.insert sigId dst[sigId]?
  | .both sigId _ => entries.insert sigId dst[sigId]?
  | .conflict _ _ _ _ _ => entries

/-- Pin a sig that was resolved to one of the sides. -/
def pinResolution (dst src : HeadMap) (entries : MergeEntries) (entry : ConflictId × Resolution) :
    MergeEntries :=
  match entry.2 with
  | .takeOurs => entries.insert entry.1 dst[entry.1]?
  | .takeTheirs => entries.insert entry.1 src[entry.1]?
  | .custom _ => entries
  | .defer => entries

/-- **The entries that pin what a merge decided** to the values it decided. -/
def mergePins (log : OpLog) (dstHead srcHead : Option OpId) (autoResolved : List MergeOutcome)
    (resolved : List (ConflictId × Resolution)) : MergeEntries :=
  let dst := log.replayHead dstHead
  let src := log.replayHead srcHead
  resolved.foldl (pinResolution dst src) (autoResolved.foldl (pinOutcome dst) ∅)

/-- Why a commit is refused after its session committed. -/
inductive MergeCommitError
  | otherTarget (conflictId : ConflictId) (opTargets : SigId)
  | noTarget (conflictId : ConflictId) (kind : OperationKind)
  | deferSlipped

/-- Add the target of a custom resolution. -/
def addCustom (entries : MergeEntries) (entry : ConflictId × Resolution) :
    Except MergeCommitError MergeEntries :=
  match entry.2 with
  | .takeOurs => .ok entries
  | .takeTheirs => .ok entries
  | .custom op =>
    match op.kind.mergeTarget with
    | some (sig, stage) =>
      if sig ≠ entry.1 then .error (.otherTarget entry.1 sig)
      else .ok (entries.insert entry.1 stage)
    | none => .error (.noTarget entry.1 op.kind)
  | .defer => .error .deferSlipped

/-- **The entries of the merge operation** a committed session lands. -/
def mergeEntries (log : OpLog) (session : MergeSession)
    (resolved : List (ConflictId × Resolution)) : Except MergeCommitError MergeEntries :=
  resolved.foldlM addCustom
    (mergePins log session.dstHead session.srcHead session.autoResolved resolved)

/-! ## The outcome of a sig -/

/-- The sig an outcome is about. -/
def MergeOutcome.sigId : MergeOutcome → SigId
  | .both sigId _ => sigId
  | .src sigId _ => sigId
  | .dst sigId _ => sigId
  | .conflict sigId _ _ _ _ => sigId

variable {sig : SigId}

variable {o : MergeOutcome}

section Outcome

variable (log : OpLog) (srcHead dstHead : Option OpId)

/-- What the merge says of a sig. -/
def outcomeAt (sig : SigId) : Option MergeOutcome :=
  outcomeOf (log.replayHead (mergeBase log srcHead dstHead)) sig
    (groupBySig (sideOps log srcHead (mergeBase log srcHead dstHead)))[sig]?
    (groupBySig (sideOps log dstHead (mergeBase log srcHead dstHead)))[sig]?

variable {log srcHead dstHead}

theorem sigId_of_outcomeAt (h : outcomeAt log srcHead dstHead sig = some o) : o.sigId = sig := by
  unfold outcomeAt outcomeOf at h
  split at h
  · simp only at h
    split at h <;> cases h <;> rfl
  · cases h
    rfl
  · cases h
    rfl
  · cases h

theorem mem_outcomes_iff_outcomeAt :
    o ∈ (merge log srcHead dstHead).outcomes ↔ outcomeAt log srcHead dstHead o.sigId = some o := by
  rw [mem_outcomes_iff]
  constructor
  · rintro ⟨sig, h⟩
    have hsig := sigId_of_outcomeAt h
    rw [hsig]
    exact h
  · exact fun h => ⟨o.sigId, h⟩

theorem outcomeAt_eq_none_iff : outcomeAt log srcHead dstHead sig = none ↔
      ¬ Touches log srcHead (mergeBase log srcHead dstHead) sig ∧
        ¬ Touches log dstHead (mergeBase log srcHead dstHead) sig := by
  unfold outcomeAt Touches
  rw [getElem?_groupBySig, getElem?_groupBySig]
  split
  · next hsrc =>
    split
    · next hdst => simp [outcomeOf, hsrc, hdst]
    · next hdst => simp [outcomeOf, hdst]
  · next hsrc =>
    split
    · next hdst => simp [outcomeOf, hsrc]
    · next hdst =>
      unfold outcomeOf
      simp only
      split <;> simp [hsrc]

/-- What `src` binds in a conflict, as the merge lists it. -/
theorem theirs_of_outcomeAt {kind : ConflictKind} {base theirs ours : Option StageId}
    {sig' : SigId} (h : outcomeAt log srcHead dstHead sig = some (.conflict sig' kind base theirs ours)) :
    theirs = latestStage sig (touching sig (sideOps log srcHead (mergeBase log srcHead dstHead))).reverse := by
  unfold outcomeAt at h
  rw [getElem?_groupBySig, getElem?_groupBySig] at h
  split at h
  · split at h
    · cases h
    · cases h
  · split at h
    · cases h
    · unfold outcomeOf at h
      simp only at h
      split at h
      · cases h
      · cases h
        rfl

end Outcome

/-! ## A session over two heads -/

namespace MergeSession

/-- Calls change the resolutions only. -/
structure SameMerge (session session' : MergeSession) : Prop where
  srcHead : session'.srcHead = session.srcHead
  dstHead : session'.dstHead = session.dstHead
  autoResolved : session'.autoResolved = session.autoResolved
  conflicts : session'.conflicts = session.conflicts

theorem SameMerge.refl (session : MergeSession) : SameMerge session session := ⟨rfl, rfl, rfl, rfl⟩

theorem SameMerge.trans {first second third : MergeSession} (h : SameMerge first second)
    (h' : SameMerge second third) : SameMerge first third :=
  ⟨h'.srcHead.trans h.srcHead, h'.dstHead.trans h.dstHead, h'.autoResolved.trans h.autoResolved,
    h'.conflicts.trans h.conflicts⟩

variable {checker : ResolutionChecker}

theorem sameMerge_resolveChecked (submissions : List (ConflictId × Resolution)) (session : MergeSession) :
    SameMerge session (session.resolveChecked submissions checker).1 := by
  induction submissions generalizing session with
  | nil => exact SameMerge.refl session
  | cons submission submissions ih =>
    refine SameMerge.trans ?_ (ih (session.submit checker submission).1)
    rcases submit_cases checker session submission with ⟨-, heq⟩ | ⟨-, rejection, heq⟩
    · rw [heq]
      exact ⟨rfl, rfl, rfl, rfl⟩
    · rw [heq]
      exact SameMerge.refl session

theorem sameMerge_resolveFiles (submissions : List (FilePath × FileResolution))
    (session : MergeSession) : SameMerge session (session.resolveFiles submissions).1 := by
  induction submissions generalizing session with
  | nil => exact SameMerge.refl session
  | cons submission submissions ih =>
    refine SameMerge.trans ?_ (ih (session.submitFile submission).1)
    rcases submitFile_cases session submission with ⟨-, heq⟩ | ⟨-, heq⟩
    · rw [heq]
      exact ⟨rfl, rfl, rfl, rfl⟩
    · rw [heq]
      exact SameMerge.refl session

theorem sameMerge_run (calls : List Call) (session : MergeSession) :
    SameMerge session (session.run checker calls).1 := by
  induction calls generalizing session with
  | nil => exact SameMerge.refl session
  | cons first calls ih =>
    refine SameMerge.trans ?_ (ih (session.call checker first).1)
    cases first with
    | resolveChecked resolutions => exact sameMerge_resolveChecked resolutions session
    | resolveFiles resolutions => exact sameMerge_resolveFiles resolutions session

theorem getElem?_start_conflicts (mergeId : String) {log : OpLog} {srcHead dstHead : Option OpId} (id : ConflictId) :
    (start mergeId log srcHead dstHead).conflicts[id]? =
      (outcomeAt log srcHead dstHead id).bind MergeOutcome.toConflict := by
  have hconflicts : (start mergeId log srcHead dstHead).conflicts = insertAll ∅
      (((merge log srcHead dstHead).outcomes.filterMap MergeOutcome.toConflict).flatMap
        fun record => [(record.conflictId, record)]) := by
    exact @foldl_eq_insertAll _ _ _ (fun record : ConflictRecord => [(record.conflictId, record)])
      (fun _ _ => rfl) _ ∅
  rw [hconflicts]
  apply getElem?_insertAll_eq
  intro id record
  simp only [mem_flatMap, List.mem_filterMap, mem_singleton, Prod.mk.injEq]
  constructor
  · rintro ⟨record', ⟨o, ho, hrecord⟩, rfl, rfl⟩
    have hsig : o.sigId = record.conflictId := by
      cases o <;> cases hrecord
      rfl
    rw [← hsig, mem_outcomes_iff_outcomeAt.mp ho]
    exact hrecord
  · intro h
    obtain ⟨o, ho, hrecord⟩ := bind_eq_some_iff.mp h
    have hsig := sigId_of_outcomeAt ho
    have hconflict : o.sigId = record.conflictId := by
      cases o <;> cases hrecord
      rfl
    refine ⟨record, ⟨o, mem_outcomes_iff_outcomeAt.mpr (hsig.symm ▸ ho), hrecord⟩, ?_, rfl⟩
    rw [← hconflict, hsig]

end MergeSession

/-- **A merge that was reviewed and committed**: a session over two heads, after any calls, and the
entries its commit lands, on an operation that is new to the log. -/
structure ReviewedMerge where
  log : OpLog
  srcHead : Option OpId
  dstHead : Option OpId
  mergeId : String
  fileConflicts : List FileConflict
  needsSetfiles : Bool
  checker : ResolutionChecker
  calls : List MergeSession.Call
  output : MergeCommitOutput
  committed : (((MergeSession.start mergeId log srcHead dstHead).attachFileConflicts fileConflicts
    needsSetfiles).run checker calls).1.commit = .ok output
  entries : MergeEntries
  landed : mergeEntries log (((MergeSession.start mergeId log srcHead dstHead).attachFileConflicts
    fileConflicts needsSetfiles).run checker calls).1 output.resolved = .ok entries
  record : OperationRecord
  produces : record.produces = .merge entries
  parents : ∀ p, p ∈ record.op.parents ↔ p ∈ dstHead.toList ∨ p ∈ srcHead.toList
  fresh : log.get record.opId = none
  acyclic : (log.put record).Acyclic

variable {id : ConflictId} {resolution : Resolution}

namespace ReviewedMerge

variable (m : ReviewedMerge)

/-- The session when it is committed. -/
def session : MergeSession :=
  (((MergeSession.start m.mergeId m.log m.srcHead m.dstHead).attachFileConflicts m.fileConflicts
    m.needsSetfiles).run m.checker m.calls).1

/-- What the merge says of a sig. -/
abbrev outcome (sig : SigId) : Option MergeOutcome := outcomeAt m.log m.srcHead m.dstHead sig

/-- What was type-checked: `dst`'s head with the session's delta laid over. -/
def reviewed (sig : SigId) : Option StageId :=
  ((m.session.projectedDelta m.session.resolutions)[sig]?).getD (m.log.replayHead m.dstHead)[sig]?

/-- What lands: the replay of the merge operation. -/
def merged (sig : SigId) : Option StageId := ((m.log.put m.record).replay m.record.opId)[sig]?

theorem sameMerge : MergeSession.SameMerge ((MergeSession.start m.mergeId m.log m.srcHead
    m.dstHead).attachFileConflicts m.fileConflicts m.needsSetfiles) m.session :=
  MergeSession.sameMerge_run m.calls _

theorem getElem?_conflicts (id : ConflictId) :
    m.session.conflicts[id]? = (m.outcome id).bind MergeOutcome.toConflict := by
  rw [m.sameMerge.conflicts]
  show (MergeSession.start m.mergeId m.log m.srcHead m.dstHead).conflicts[id]? = _
  exact MergeSession.getElem?_start_conflicts m.mergeId id

theorem mem_autoResolved : o ∈ m.session.autoResolved ↔ m.outcome o.sigId = some o ∧ o.toConflict = none := by
  rw [m.sameMerge.autoResolved]
  show o ∈ (merge m.log m.srcHead m.dstHead).outcomes.filter _ ↔ _
  rw [List.mem_filter, mem_outcomes_iff_outcomeAt, isNone_iff_eq_none]

theorem mem_resolved : (id, resolution) ∈ m.output.resolved ↔ m.session.resolutions[id]? = some resolution := by
  have howes := MergeSession.checkedSession_owes m.checker m.mergeId m.log m.srcHead m.dstHead
    m.fileConflicts m.needsSetfiles m.calls
  obtain ⟨hkeys, hentries⟩ := howes.commits.resolved m.output m.committed
  constructor
  · exact fun h => (hentries (id, resolution) h).1
  · intro h
    have hin : id ∈ m.session.conflicts := howes.known id (by
      rw [mem_iff_isSome_getElem?]
      exact isSome_iff_exists.mpr ⟨resolution, h⟩)
    obtain ⟨⟨id', resolution'⟩, hmem, rfl⟩ :=
      List.mem_map.mp (hkeys.mem_iff.mpr (Std.ExtTreeMap.mem_keys.mpr hin))
    have hsame := (hentries _ hmem).1
    rw [some.inj (h.symm.trans hsame)]
    exact hmem

theorem mem_conflicts_iff :
    id ∈ m.session.conflicts ↔ ∃ resolution, m.session.resolutions[id]? = some resolution := by
  have howes := MergeSession.checkedSession_owes m.checker m.mergeId m.log m.srcHead m.dstHead
    m.fileConflicts m.needsSetfiles m.calls
  obtain ⟨hkeys, -⟩ := howes.commits.resolved m.output m.committed
  constructor
  · intro h
    obtain ⟨⟨id', resolution⟩, hmem, rfl⟩ :=
      List.mem_map.mp (hkeys.mem_iff.mpr (Std.ExtTreeMap.mem_keys.mpr h))
    exact ⟨resolution, m.mem_resolved.mp hmem⟩
  · rintro ⟨resolution, h⟩
    exact howes.known id (by
      rw [mem_iff_isSome_getElem?]
      exact isSome_iff_exists.mpr ⟨resolution, h⟩)

end ReviewedMerge

/-- The entry a custom resolution adds. -/
def customEntries (entry : ConflictId × Resolution) : List (SigId × Option StageId) :=
  match entry.2 with
  | .custom op => (op.kind.mergeTarget.map fun target => (entry.1, target.2)).toList
  | _ => []

theorem foldlM_addCustom {resolved : List (ConflictId × Resolution)} {start entries : MergeEntries}
    (h : resolved.foldlM addCustom start = .ok entries) : entries = insertAll start (resolved.flatMap customEntries) ∧
      ∀ id op, (id, Resolution.custom op) ∈ resolved → ∃ stage, op.kind.mergeTarget = some (id, stage) := by
  induction resolved generalizing start with
  | nil =>
    cases h
    exact ⟨rfl, fun id op hmem => absurd hmem not_mem_nil⟩
  | cons entry resolved ih =>
    rw [foldlM_cons] at h
    obtain ⟨id, resolution⟩ := entry
    have hskip : ∀ next : MergeEntries, addCustom start (id, resolution) = .ok next →
        entries = insertAll next (resolved.flatMap customEntries) ∧
          ∀ id op, (id, Resolution.custom op) ∈ resolved →
            ∃ stage, op.kind.mergeTarget = some (id, stage) := by
      intro next hnext
      rw [hnext] at h
      exact ih h
    cases resolution with
    | takeOurs | takeTheirs =>
      obtain ⟨hentries, htargets⟩ := hskip start rfl
      refine ⟨hentries, fun id' op hmem => ?_⟩
      rcases mem_cons.mp hmem with heq | hmem
      · cases heq
      · exact htargets id' op hmem
    | defer => cases h
    | custom op =>
      cases htarget : op.kind.mergeTarget with
      | none =>
        simp only [addCustom, htarget] at h
        cases h
      | some target =>
        obtain ⟨sig, stage⟩ := target
        by_cases hsig : sig = id
        · subst hsig
          have hadd : addCustom start (sig, .custom op) = .ok (start.insert sig stage) := by
            simp [addCustom, htarget]
          obtain ⟨hentries, htargets⟩ := hskip _ hadd
          refine ⟨?_, fun id' op' hmem => ?_⟩
          · rw [hentries]
            simp [customEntries, htarget, insertAll]
          · rcases mem_cons.mp hmem with heq | hmem
            · cases heq
              exact ⟨stage, htarget⟩
            · exact htargets id' op' hmem
        · simp only [addCustom, htarget, if_pos hsig] at h
          cases h

/-! ## Sig by sig -/

/-- The entry of an outcome in the delta. -/
def outcomeDelta : MergeOutcome → List (SigId × Option StageId)
  | .src sigId stageId => [(sigId, stageId)]
  | .both _ _ => []
  | .dst _ _ => []
  | .conflict _ _ _ _ _ => []

/-- The entry of a conflict in the delta. -/
def conflictDelta (resolutions : ExtTreeMap ConflictId Resolution)
    (entry : ConflictId × ConflictRecord) : List (SigId × Option StageId) :=
  match resolutions[entry.1]? with
  | some .takeTheirs => [(entry.2.sigId, entry.2.theirs)]
  | some (.custom op) => op.kind.mergeTarget.toList
  | _ => []

theorem projectedDelta_eq (session : MergeSession) (resolutions : ExtTreeMap ConflictId Resolution) :
    session.projectedDelta resolutions = insertAll ∅ (session.autoResolved.flatMap outcomeDelta ++
        session.conflicts.toList.flatMap (conflictDelta resolutions)) := by
  rw [insertAll_append]
  have houtcome : session.autoResolved.foldl MergeSession.projectOutcome ∅ =
      insertAll ∅ (session.autoResolved.flatMap outcomeDelta) := by
    apply foldl_eq_insertAll
    intro delta outcome
    cases outcome <;> rfl
  unfold MergeSession.projectedDelta
  rw [houtcome]
  apply foldl_eq_insertAll
  intro delta entry
  unfold MergeSession.projectConflict conflictDelta
  cases resolutions[entry.1]? with
  | none => rfl
  | some resolution =>
    cases resolution with
    | takeOurs => rfl
    | takeTheirs => rfl
    | defer => rfl
    | custom op =>
      show (match op.kind.mergeTarget with
        | some (sig, stage) => delta.insert sig stage
        | none => delta) = insertAll delta op.kind.mergeTarget.toList
      cases op.kind.mergeTarget <;> rfl

/-- The entry of an outcome in the pins. -/
def outcomePin (dst : HeadMap) : MergeOutcome → List (SigId × Option StageId)
  | .src sigId stageId => [(sigId, stageId)]
  | .both sigId _ => [(sigId, dst[sigId]?)]
  | .dst sigId _ => [(sigId, dst[sigId]?)]
  | .conflict _ _ _ _ _ => []

/-- The entry of a resolution in the pins. -/
def resolutionPin (dst src : HeadMap) (entry : ConflictId × Resolution) :
    List (SigId × Option StageId) :=
  match entry.2 with
  | .takeOurs => [(entry.1, dst[entry.1]?)]
  | .takeTheirs => [(entry.1, src[entry.1]?)]
  | _ => []

theorem mergePins_eq (log : OpLog) (dstHead srcHead : Option OpId)
    (autoResolved : List MergeOutcome) (resolved : List (ConflictId × Resolution)) :
    mergePins log dstHead srcHead autoResolved resolved = insertAll ∅
      (autoResolved.flatMap (outcomePin (log.replayHead dstHead)) ++
        resolved.flatMap (resolutionPin (log.replayHead dstHead) (log.replayHead srcHead))) := by
  rw [insertAll_append]
  have houtcome : autoResolved.foldl (pinOutcome (log.replayHead dstHead)) ∅ =
      insertAll ∅ (autoResolved.flatMap (outcomePin (log.replayHead dstHead))) := by
    apply foldl_eq_insertAll
    intro entries outcome
    cases outcome <;> rfl
  unfold mergePins
  simp only
  rw [houtcome]
  apply foldl_eq_insertAll
  intro entries entry
  obtain ⟨id, resolution⟩ := entry
  cases resolution <;> rfl

namespace ReviewedMerge

variable (m : ReviewedMerge)

theorem mergeTarget_eq {op : Operation} (h : m.session.resolutions[id]? = some (.custom op)) :
    ∃ stage, op.kind.mergeTarget = some (id, stage) :=
  (foldlM_addCustom m.landed).2 id op (m.mem_resolved.mpr h)

/-- What the delta says of a sig. -/
def deltaAt (sig : SigId) : Option (Option StageId) :=
  match m.outcome sig with
  | some (.src _ stageId) => some stageId
  | some (.conflict _ _ _ theirs _) =>
    match m.session.resolutions[sig]? with
    | some .takeTheirs => some theirs
    | some (.custom op) => op.kind.mergeTarget.map Prod.snd
    | _ => none
  | _ => none

/-- What the entries say of a sig. -/
def entryAt (sig : SigId) : Option (Option StageId) :=
  match m.outcome sig with
  | some (.src _ stageId) => some stageId
  | some (.both _ _) => some (m.log.replayHead m.dstHead)[sig]?
  | some (.dst _ _) => some (m.log.replayHead m.dstHead)[sig]?
  | some (.conflict _ _ _ _ _) =>
    match m.session.resolutions[sig]? with
    | some .takeOurs => some (m.log.replayHead m.dstHead)[sig]?
    | some .takeTheirs => some (m.log.replayHead m.srcHead)[sig]?
    | some (.custom op) => op.kind.mergeTarget.map Prod.snd
    | _ => none
  | none => none

theorem exists_conflict (h : m.session.resolutions[sig]? = some resolution) :
    ∃ kind base theirs ours, m.outcome sig = some (.conflict sig kind base theirs ours) := by
  have hin := m.mem_conflicts_iff.mpr ⟨resolution, h⟩
  rw [mem_iff_isSome_getElem?, m.getElem?_conflicts] at hin
  obtain ⟨record, hrecord⟩ := isSome_iff_exists.mp hin
  obtain ⟨o, ho, hconflict⟩ := bind_eq_some_iff.mp hrecord
  have hsig := sigId_of_outcomeAt ho
  cases o with
  | conflict sigId kind base theirs ours =>
    obtain rfl : sigId = sig := hsig
    exact ⟨kind, base, theirs, ours, ho⟩
  | both _ _ => cases hconflict
  | src _ _ => cases hconflict
  | dst _ _ => cases hconflict

variable {value : Option StageId}

theorem mem_autoResolved_flatMap {f : MergeOutcome → List (SigId × Option StageId)}
    (hkey : ∀ o, ∀ p ∈ f o, p.1 = o.sigId) : (sig, value) ∈ m.session.autoResolved.flatMap f ↔
      ∃ o, m.outcome sig = some o ∧ o.toConflict = none ∧ (sig, value) ∈ f o := by
  rw [mem_flatMap]
  constructor
  · rintro ⟨o, ho, hmem⟩
    obtain ⟨houtcome, hnone⟩ := m.mem_autoResolved.mp ho
    obtain rfl : sig = o.sigId := hkey o _ hmem
    exact ⟨o, houtcome, hnone, hmem⟩
  · rintro ⟨o, ho, hnone, hmem⟩
    obtain rfl : sig = o.sigId := hkey o _ hmem
    exact ⟨o, m.mem_autoResolved.mpr ⟨ho, hnone⟩, hmem⟩

theorem mem_resolved_flatMap {f : ConflictId × Resolution → List (SigId × Option StageId)}
    (hkey : ∀ id resolution, m.session.resolutions[id]? = some resolution → ∀ p ∈ f (id, resolution), p.1 = id)
     : (sig, value) ∈ m.output.resolved.flatMap f ↔
      ∃ resolution, m.session.resolutions[sig]? = some resolution ∧ (sig, value) ∈ f (sig, resolution) := by
  rw [mem_flatMap]
  constructor
  · rintro ⟨⟨id, resolution⟩, hentry, hmem⟩
    have hresolution := m.mem_resolved.mp hentry
    obtain rfl : sig = id := hkey id resolution hresolution _ hmem
    exact ⟨resolution, hresolution, hmem⟩
  · rintro ⟨resolution, hresolution, hmem⟩
    exact ⟨(sig, resolution), m.mem_resolved.mpr hresolution, hmem⟩

theorem mem_conflictDelta : (sig, value) ∈ m.session.conflicts.toList.flatMap (conflictDelta m.session.resolutions) ↔
      ∃ kind base theirs ours resolution, m.outcome sig = some (.conflict sig kind base theirs ours) ∧
        m.session.resolutions[sig]? = some resolution ∧
          (sig, value) ∈ conflictDelta m.session.resolutions (sig, ⟨sig, sig, kind, base, ours, theirs⟩) := by
  have hrecord : ∀ {id : ConflictId} {kind base theirs ours},
      m.outcome id = some (.conflict id kind base theirs ours) →
        m.session.conflicts[id]? = some ⟨id, id, kind, base, ours, theirs⟩ := by
    intro id kind base theirs ours ho
    rw [m.getElem?_conflicts, ho]
    rfl
  rw [mem_flatMap]
  constructor
  · rintro ⟨⟨id, record⟩, hentry, hmem⟩
    have hentry := mem_toList_iff_getElem?_eq_some.mp hentry
    cases hresolution : m.session.resolutions[id]? with
    | none => simp [conflictDelta, hresolution] at hmem
    | some resolution =>
      obtain ⟨kind, base, theirs, ours, ho⟩ := m.exists_conflict hresolution
      obtain rfl := some.inj ((hrecord ho).symm.trans hentry)
      have hid : sig = id := by
        cases resolution with
        | custom op =>
          obtain ⟨stage, htarget⟩ := m.mergeTarget_eq hresolution
          simp_all [conflictDelta]
        | _ => simp_all [conflictDelta]
      subst hid
      exact ⟨kind, base, theirs, ours, resolution, ho, hresolution, hmem⟩
  · rintro ⟨kind, base, theirs, ours, resolution, ho, -, hmem⟩
    exact ⟨_, mem_toList_iff_getElem?_eq_some.mpr (hrecord ho), hmem⟩

theorem getElem?_delta (sig : SigId) : (m.session.projectedDelta m.session.resolutions)[sig]? = m.deltaAt sig := by
  rw [projectedDelta_eq]
  apply getElem?_insertAll_eq
  intro sig value
  rw [mem_append, m.mem_autoResolved_flatMap fun o p hp => by cases o <;> simp_all [outcomeDelta]; rfl,
    m.mem_conflictDelta]
  unfold deltaAt
  cases ho : m.outcome sig with
  | none => simp
  | some o =>
    have hsig := sigId_of_outcomeAt ho
    cases o with
    | conflict sigId kind base theirs ours =>
      obtain rfl : sigId = sig := hsig
      cases hresolution : m.session.resolutions[sigId]? with
      | none => simp [MergeOutcome.toConflict]
      | some resolution =>
        cases resolution with
        | custom op =>
          obtain ⟨stage, htarget⟩ := m.mergeTarget_eq hresolution
          simp [MergeOutcome.toConflict, conflictDelta, hresolution, htarget, eq_comm]
        | _ => simp [MergeOutcome.toConflict, conflictDelta, hresolution]
    | _ =>
      obtain rfl := hsig
      simp [MergeOutcome.toConflict, outcomeDelta, MergeOutcome.sigId, eq_comm]

theorem getElem?_entries (sig : SigId) : m.entries[sig]? = m.entryAt sig := by
  have hdst : m.session.dstHead = m.dstHead := m.sameMerge.dstHead
  have hsrc : m.session.srcHead = m.srcHead := m.sameMerge.srcHead
  have hentries : m.entries = insertAll (mergePins m.log m.session.dstHead m.session.srcHead
      m.session.autoResolved m.output.resolved) (m.output.resolved.flatMap customEntries) :=
    (foldlM_addCustom m.landed).1
  rw [hentries, hdst, hsrc, mergePins_eq, ← insertAll_append]
  apply getElem?_insertAll_eq
  intro sig value
  rw [mem_append, mem_append,
    m.mem_autoResolved_flatMap fun o p hp => by cases o <;> simp_all [outcomePin] <;> rfl,
    m.mem_resolved_flatMap fun id resolution _ p hp => by cases resolution <;> simp_all [resolutionPin],
    m.mem_resolved_flatMap fun id resolution hresolution p hp => by
      cases resolution with
      | custom op =>
        obtain ⟨stage, htarget⟩ := m.mergeTarget_eq hresolution
        simp_all [customEntries]
      | _ => simp_all [customEntries]]
  unfold entryAt
  cases hresolution : m.session.resolutions[sig]? with
  | none =>
    cases ho : m.outcome sig with
    | none => simp
    | some o =>
      obtain rfl := sigId_of_outcomeAt ho
      cases o <;> simp [MergeOutcome.toConflict, outcomePin, MergeOutcome.sigId, eq_comm]
  | some resolution =>
    obtain ⟨kind, base, theirs, ours, ho⟩ := m.exists_conflict hresolution
    rw [ho]
    cases resolution with
    | custom op =>
      obtain ⟨stage, htarget⟩ := m.mergeTarget_eq hresolution
      simp [MergeOutcome.toConflict, resolutionPin, customEntries]
    | _ => simp [MergeOutcome.toConflict, resolutionPin, customEntries, eq_comm]

theorem ne_defer (h : m.session.resolutions[sig]? = some .defer) : False := by
  have hmem := m.mem_resolved.mpr h
  have howes := MergeSession.checkedSession_owes m.checker m.mergeId m.log m.srcHead m.dstHead
    m.fileConflicts m.needsSetfiles m.calls
  obtain ⟨-, hentries⟩ := howes.commits.resolved m.output m.committed
  exact (hentries _ hmem).2 rfl

/-! ## The merged head -/

/-- The history of the merge operation. -/
abbrev joined : OpLog := m.log.put m.record

theorem get_joined : m.joined.get m.record.opId = some m.record := by
  rw [OpLog.get_put, m.fresh, if_pos rfl]
  rfl

theorem merged_of_entry (h : m.entries[sig]? = some value) : m.merged sig = value := by
  apply OpLog.getElem?_replay_of_writes m.acyclic m.get_joined
  rw [m.produces]
  exact h

/-- Neither side touched the sig since the common ancestor. -/
def Untouched (sig : SigId) : Prop :=
  ¬ Touches m.log m.srcHead (mergeBase m.log m.srcHead m.dstHead) sig ∧
    ¬ Touches m.log m.dstHead (mergeBase m.log m.srcHead m.dstHead) sig

/-- The merge decides nothing about an untouched sig: it has no entry, and none in the delta. -/
theorem untouched_iff : m.Untouched sig ↔ m.outcome sig = none :=
  outcomeAt_eq_none_iff.symm

theorem reviewed_of_untouched (h : m.Untouched sig) : m.reviewed sig = (m.log.replayHead m.dstHead)[sig]? := by
  unfold reviewed
  rw [m.getElem?_delta]
  unfold deltaAt
  rw [m.untouched_iff.mp h]
  rfl

/-- **What the claim asks of a merge**: it lands what was reviewed, and a sig neither side touched is
in it as both heads have it. -/
structure AsReviewed : Prop where
  reviewed : ∀ sig, m.merged sig = m.reviewed sig
  untouched : ∀ sig, m.Untouched sig → m.merged sig = (m.log.replayHead m.dstHead)[sig]? ∧
    m.merged sig = (m.log.replayHead m.srcHead)[sig]?

/-- **A head of the merged history leaves a sig as a head before it did**: the operation replayed last
of those that write the sig is the same in both, or it is another one that writes the same. -/
def DecidedAlike (head : Option OpId) (sig : SigId) : Prop :=
  decider m.joined (some m.record.opId) sig = decider m.log head sig ∨
    (decider m.joined (some m.record.opId) sig ≠ decider m.log head sig ∧
      ((decider m.joined (some m.record.opId) sig).bind fun r => r.produces.writes sig).join =
        ((decider m.log head sig).bind fun r => r.produces.writes sig).join)

theorem merged_eq_head_iff (head : Option OpId) (sig : SigId) :
    m.merged sig = (m.log.replayHead head)[sig]? ↔ m.DecidedAlike head sig := by
  have hmerged : m.merged sig = (m.joined.replayHead (some m.record.opId))[sig]? := rfl
  rw [hmerged, getElem?_replayHead, getElem?_replayHead]
  unfold DecidedAlike
  by_cases hsame : decider m.joined (some m.record.opId) sig = decider m.log head sig
  · rw [hsame]
    simp
  · simp [hsame]

/-- **A sig the merge decided** lands as reviewed, unless `src` was taken where its listing does not
say what its replay does. -/
theorem merged_eq_reviewed_iff (h : ¬ m.Untouched sig) : m.merged sig = m.reviewed sig ↔
      (m.session.resolutions[sig]? = some .takeTheirs →
        ListedAsReplayed m.log m.srcHead (mergeBase m.log m.srcHead m.dstHead) sig) := by
  have hentry := m.getElem?_entries sig
  have hdelta := m.getElem?_delta sig
  unfold entryAt at hentry
  unfold deltaAt at hdelta
  have hout : ∀ resolution, m.session.resolutions[sig]? = some resolution →
      ∃ kind base theirs ours, m.outcome sig = some (.conflict sig kind base theirs ours) :=
    fun _ => m.exists_conflict
  -- what both sides agree on needs no resolution
  have hplain : ∀ value, m.entries[sig]? = some value →
      ((m.session.projectedDelta m.session.resolutions)[sig]?).getD
        (m.log.replayHead m.dstHead)[sig]? = value →
      m.session.resolutions[sig]? ≠ some .takeTheirs →
      (m.merged sig = m.reviewed sig ↔ (m.session.resolutions[sig]? = some .takeTheirs →
        ListedAsReplayed m.log m.srcHead (mergeBase m.log m.srcHead m.dstHead) sig)) := by
    intro value hentry hreviewed hne
    rw [m.merged_of_entry hentry]
    exact ⟨fun _ h => absurd h hne, fun _ => hreviewed.symm⟩
  cases ho : m.outcome sig with
  | none => exact absurd (m.untouched_iff.mpr ho) h
  | some o =>
    rw [ho] at hentry hdelta
    cases o with
    | src sigId stageId =>
      refine hplain stageId hentry (by rw [hdelta]; rfl) fun htheirs => ?_
      obtain ⟨kind, base, theirs, ours, hconflict⟩ := hout _ htheirs
      exact nomatch ho.symm.trans hconflict
    | both | dst =>
      refine hplain _ hentry (by rw [hdelta]; rfl) fun htheirs => ?_
      obtain ⟨kind, base, theirs, ours, hconflict⟩ := hout _ htheirs
      exact nomatch ho.symm.trans hconflict
    | conflict sigId kind base theirs ours =>
      have hsig : sigId = sig := sigId_of_outcomeAt ho
      subst hsig
      obtain ⟨resolution, hresolution⟩ := m.mem_conflicts_iff.mp (by
        rw [mem_iff_isSome_getElem?, m.getElem?_conflicts, ho]
        rfl : sigId ∈ m.session.conflicts)
      simp only [hresolution] at hentry hdelta
      cases resolution with
      | defer => exact (m.ne_defer hresolution).elim
      | takeOurs =>
        exact hplain _ hentry (by rw [hdelta]; rfl) (by rw [hresolution]; nofun)
      | custom op =>
        obtain ⟨stage, htarget⟩ := m.mergeTarget_eq hresolution
        simp only [htarget] at hentry hdelta
        exact hplain stage hentry (by rw [hdelta]; rfl) (by rw [hresolution]; nofun)
      | takeTheirs =>
        have hreviewed : m.reviewed sigId = theirs := by
          unfold reviewed
          rw [hdelta]
          rfl
        rw [m.merged_of_entry hentry, hreviewed, theirs_of_outcomeAt ho, hresolution, eq_comm,
          latestStage_eq_replay_iff]
        exact ⟨fun h _ => h, fun h => h rfl⟩

end ReviewedMerge

/-! ## A moved sig -/

/-- `src` moves `f` to `f2` while `dst` changes it. -/
def movedMergeLog : OpLog := OpLog.ofRecords
  [⟨"g", .v1, .new (.addType "f" "s1" none) [], .create "f" "s1"⟩,
    ⟨"m", .v1, .new (.modifyType "f" "s1" "s2" (some "f2")) ["g"], .rename "f" "f2" "s2"⟩,
    ⟨"d", .v1, .new (.modifyType "f" "s1" "s3" none) ["g"], .replace "f" "s1" "s3"⟩]

/-- The session in which `src` is taken for `f`. -/
def movedSession : MergeSession :=
  (((MergeSession.start "x" movedMergeLog (some "m") (some "d")).attachFileConflicts [] false).run
    (fun _ => []) [.resolveChecked [("f", .takeTheirs)]]).1

/-- What it lands: `f` as `src`'s head has it, which is not at all. -/
def movedEntries : MergeEntries :=
  mergePins movedMergeLog (some "d") (some "m") movedSession.autoResolved [("f", .takeTheirs)]

/-- The operation it lands with. -/
def movedRecord : OperationRecord :=
  ⟨"x", .v1, .new (.merge 2) ["d", "m"], .merge movedEntries⟩

/-- The merge. -/
def movedMerge : ReviewedMerge where
  log := movedMergeLog
  srcHead := some "m"
  dstHead := some "d"
  mergeId := "x"
  fileConflicts := []
  needsSetfiles := false
  checker := fun _ => []
  calls := [.resolveChecked [("f", .takeTheirs)]]
  output := ⟨[("f", .takeTheirs)], [], false⟩
  committed := rfl
  entries := movedEntries
  landed := rfl
  record := movedRecord
  produces := rfl
  parents := by
    have hparents : movedRecord.op.parents = ["d", "m"] := rfl
    simp [hparents]
  fresh := rfl
  acyclic := by
    have hlog : movedMergeLog.put movedRecord = OpLog.ofRecords
      [⟨"g", .v1, .new (.addType "f" "s1" none) [], .create "f" "s1"⟩,
        ⟨"m", .v1, .new (.modifyType "f" "s1" "s2" (some "f2")) ["g"], .rename "f" "f2" "s2"⟩,
        ⟨"d", .v1, .new (.modifyType "f" "s1" "s3" none) ["g"], .replace "f" "s1" "s3"⟩,
        movedRecord] := rfl
    rw [hlog]
    exact OpLog.acyclic_ofRecords (by decide +kernel) (by decide +kernel)

end LexLang.Vcs
