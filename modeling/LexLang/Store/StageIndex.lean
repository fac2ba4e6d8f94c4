/-
# LexLang.Store.StageIndex — which signature owns a stage: the index and the full scan

A store keeps one lifecycle a signature. `lookup_lifecycle` (`lex-store/src/store.rs`) finds the
signature of a stage in an append-only index, `stage_index.jsonl`, and scans every lifecycle where the
index does not say; what a scan finds, also that it finds nothing, becomes a line of the index. Every
file write is a step of its own: a reader owes its lines until they are written, or lost in a crash.

`transparent_iff` says in which runs the index never shows.
-/
import LexLang.Vcs.Operation
import Mathlib.Data.List.Induction
import Std.Data.ExtTreeMap

namespace LexLang.StageIndex

open LexLang.Vcs
open Bool List Option Std.ExtTreeMap

/-! ## Lifecycles -/

inductive StageStatus
  | draft
  | active
  | deprecated
  | tombstone
  deriving DecidableEq

/-- The name of a status, as it is printed. -/
def StageStatus.debug : StageStatus → String
  | .draft => "Draft"
  | .active => "Active"
  | .deprecated => "Deprecated"
  | .tombstone => "Tombstone"

/-- One step of a stage's life. `from` and `to` of the source are `fromStatus` and `toStatus`. -/
structure Transition where
  stageId : StageId
  fromStatus : StageStatus
  toStatus : StageStatus
  /-- Unix seconds. -/
  at' : Nat
  reason : Option String
  deriving DecidableEq

/-- **The log of one signature**: the transitions of every stage published under it. -/
structure Lifecycle where
  sigId : SigId
  transitions : List Transition
  deriving DecidableEq

variable {life : Lifecycle}

namespace Lifecycle

def push (life : Lifecycle) (t : Transition) : Lifecycle :=
  { life with transitions := life.transitions ++ [t] }

/-- The log has a transition of a stage. -/
def lists (life : Lifecycle) (stageId : StageId) : Bool :=
  life.transitions.any fun t => t.stageId == stageId

/-- The current status of a stage. -/
def statusOf (life : Lifecycle) (stageId : StageId) : Option StageStatus :=
  (life.transitions.reverse.find? fun t => t.stageId == stageId).map Transition.toStatus

/-- The active stage, if there is one: the first, in the order of first transitions. -/
def currentActive (life : Lifecycle) : Option StageId :=
  (life.transitions.map Transition.stageId).eraseDups.find? fun stageId =>
    life.statusOf stageId == some .active

@[simp] theorem lists_push (life : Lifecycle) (t : Transition) (stageId : StageId) :
    (life.push t).lists stageId = (life.lists stageId || t.stageId == stageId) := by
  simp [push, lists]

theorem lists_of_currentActive {stageId : StageId}
    (h : life.currentActive = some stageId) : life.lists stageId = true := by
  have hmem : stageId ∈ (life.transitions.map Transition.stageId).eraseDups := mem_of_find?_eq_some h
  rw [mem_eraseDups] at hmem
  obtain ⟨t, ht, rfl⟩ := mem_map.mp hmem
  exact any_eq_true.mpr ⟨t, ht, beq_self_eq_true _⟩

end Lifecycle

/-! ## The store -/

/-- One line of `stage_index.jsonl`. -/
structure StageIndexEntry where
  stageId : StageId
  sigId : SigId
  deriving DecidableEq

/-- The signature of a line that says a full scan found nothing. -/
def missingStageMarker : SigId := ""

inductive StoreError
  | unknownStage (stageId : StageId)
  | invalidTransition (message : String)
  deriving DecidableEq

/-- **The lifecycles, the lines of the index, and the lines still to be written.** -/
structure StageStore where
  lifecycles : Std.ExtTreeMap SigId Lifecycle
  lines : List StageIndexEntry
  owed : List StageIndexEntry
  /-- A directory of signatures is never without a name. -/
  named : missingStageMarker ∉ lifecycles

/-- A signature that can be published: its directory has a name. -/
abbrev SigDir := { sigId : SigId // sigId ≠ missingStageMarker }

namespace StageStore

variable (s : StageStore)

def listSigs : List SigId := s.lifecycles.keys

def readLifecycle (sigId : SigId) : Lifecycle :=
  s.lifecycles[sigId]?.getD ⟨sigId, []⟩

def writeLifecycle (sigId : SigDir) (life : Lifecycle) : StageStore :=
  { s with
    lifecycles := s.lifecycles.insert sigId.1 life
    named := by
      rw [mem_insert, Std.compare_eq_iff_eq]
      rintro (h | h)
      · exact sigId.2 h
      · exact s.named h }

/-- The index of some lines: of two lines for a stage, the later one. -/
def indexOf (lines : List StageIndexEntry) : Std.ExtTreeMap StageId SigId :=
  lines.foldl (fun index line => index.insert line.stageId line.sigId) ∅

def loadStageIndex : Std.ExtTreeMap StageId SigId := indexOf s.lines

/-- Take some lines on, to be written later. -/
def owe (lines : List StageIndexEntry) : StageStore := { s with owed := s.owed ++ lines }

/-! ## Looking a stage up -/

/-- The first signature whose lifecycle lists a stage. -/
def scan (stageId : StageId) : Option SigId :=
  s.listSigs.find? fun sigId => (s.readLifecycle sigId).lists stageId

/-- **The answer of a full scan.** -/
def fullScan (stageId : StageId) : Except StoreError (SigId × Lifecycle) :=
  match s.scan stageId with
  | some sigId => .ok (sigId, s.readLifecycle sigId)
  | none => .error (.unknownStage stageId)

/-- What a full scan writes into the index. -/
def entryOf (stageId : StageId) : SigId := (s.scan stageId).getD missingStageMarker

/-- **Find the signature of a stage**, and its lifecycle. -/
def lookupLifecycle (stageId : StageId) : Except StoreError (SigId × Lifecycle) × StageStore :=
  match s.loadStageIndex[stageId]? with
  | some sigId =>
    if sigId = missingStageMarker then (.error (.unknownStage stageId), s)
    else if (s.readLifecycle sigId).lists stageId then (.ok (sigId, s.readLifecycle sigId), s)
    -- A line that names a signature without the stage: fall through to the scan.
    else (s.fullScan stageId, s.owe [⟨stageId, s.entryOf stageId⟩])
  | none => (s.fullScan stageId, s.owe [⟨stageId, s.entryOf stageId⟩])

/-- What one batch of lookups keeps in memory, and the lines it writes. -/
structure Batch where
  index : Std.ExtTreeMap StageId SigId
  sigsCache : Std.ExtTreeMap SigId (Option Lifecycle)
  allSigs : Option (List SigId)
  lines : List StageIndexEntry

/-- Read a lifecycle once a batch. -/
def readCached (batch : Batch) (sigId : SigId) : Option Lifecycle × Batch :=
  match batch.sigsCache[sigId]? with
  | some life => (life, batch)
  | none =>
    (some (s.readLifecycle sigId),
      { batch with sigsCache := batch.sigsCache.insert sigId (some (s.readLifecycle sigId)) })

/-- Append a line, and keep it in memory. -/
def Batch.record (batch : Batch) (stageId : StageId) (sigId : SigId) : Batch :=
  { batch with
    index := batch.index.insert stageId sigId
    lines := batch.lines ++ [⟨stageId, sigId⟩] }

/-- The scan of a batch, over the signatures that are left. -/
def scanBulk (stageId : StageId) : List SigId → Batch → Except StoreError SigId × Batch
  | [], batch => (.error (.unknownStage stageId), batch.record stageId missingStageMarker)
  | sigId :: sigs, batch =>
    let (life, batch) := s.readCached batch sigId
    if life.any fun life => life.lists stageId then (.ok sigId, batch.record stageId sigId)
    else scanBulk stageId sigs batch

/-- The scan of a batch; the list of signatures is made once. -/
def scanAllBulk (stageId : StageId) (batch : Batch) : Except StoreError SigId × Batch :=
  let allSigs := batch.allSigs.getD s.listSigs
  s.scanBulk stageId allSigs { batch with allSigs := some allSigs }

/-- Find the signature of one stage of a batch. -/
def lookupLifecycleBulk (stageId : StageId) (batch : Batch) : Except StoreError SigId × Batch :=
  match batch.index[stageId]? with
  | some sigId =>
    if sigId = missingStageMarker then (.error (.unknownStage stageId), batch)
    else
      let (life, batch) := s.readCached batch sigId
      if life.any fun life => life.lists stageId then (.ok sigId, batch)
      else s.scanAllBulk stageId batch
  | none => s.scanAllBulk stageId batch

/-- The stages of a batch, one after the other. -/
def lookupAll : List StageId → Batch → List (Except StoreError SigId) × Batch
  | [], batch => ([], batch)
  | stageId :: stages, batch =>
    let (answer, batch) := s.lookupLifecycleBulk stageId batch
    let (answers, batch) := lookupAll stages batch
    (answer :: answers, batch)

/-- The batch a bulk lookup starts with. -/
def startBatch : Batch := ⟨s.loadStageIndex, ∅, none, []⟩

/-- **Find the signatures of many stages**, with the index read once. -/
def lookupBulk (stages : List StageId) : List (Except StoreError SigId) × StageStore :=
  let (answers, batch) := s.lookupAll stages s.startBatch
  (answers, s.owe batch.lines)

/-! ## Building the index -/

/-- The lines of one lifecycle, beside an index. -/
def rebuildSig (sigId : SigId) : List Transition → Std.ExtTreeMap StageId SigId →
    List StageIndexEntry × Std.ExtTreeMap StageId SigId
  | [], existing => ([], existing)
  | t :: transitions, existing =>
    if t.stageId ∈ existing then rebuildSig sigId transitions existing
    else
      let (lines, existing) := rebuildSig sigId transitions (existing.insert t.stageId sigId)
      (⟨t.stageId, sigId⟩ :: lines, existing)

/-- The lines of some signatures, beside an index. -/
def rebuildSigs : List SigId → Std.ExtTreeMap StageId SigId → List StageIndexEntry
  | [], _ => []
  | sigId :: sigs, existing =>
    let (lines, existing) := rebuildSig sigId (s.readLifecycle sigId).transitions existing
    lines ++ rebuildSigs sigs existing

/-- **Build or top up the index**; also the number of new lines. -/
def rebuildStageIndex : Nat × StageStore :=
  let lines := s.rebuildSigs s.listSigs s.loadStageIndex
  (lines.length, s.owe lines)

/-! ## Publishing and transitions -/

/-- **Publish a stage under a signature.** The line of the index follows the lifecycle at once, or it
is owed: another process comes in between, or the process dies there. -/
def publish (sigId : SigDir) (stageId : StageId) (now : Nat) (atOnce : Bool) : StageStore :=
  let life := s.readLifecycle sigId
  if life.lists stageId then s
  else
    let written := s.writeLifecycle sigId (life.push ⟨stageId, .draft, .draft, now, none⟩)
    if atOnce then { written with lines := s.lines ++ [⟨stageId, sigId⟩] }
    else written.owe [⟨stageId, sigId⟩]

/-- Write a lifecycle back where a lookup found it. -/
def writeBack (sigId : SigId) (life : Lifecycle) : StageStore :=
  if h : sigId ≠ missingStageMarker then s.writeLifecycle ⟨sigId, h⟩ life else s

/-- Demote the active stage of a lifecycle, if it is another one. -/
def demoteActive (life : Lifecycle) (stageId : StageId) (now : Nat) : Lifecycle :=
  match life.currentActive with
  | some prev =>
    if prev ≠ stageId then life.push ⟨prev, .active, .deprecated, now, some "superseded"⟩ else life
  | none => life

/-- Make a stage the active one of its signature. -/
def activate (stageId : StageId) (now : Nat) : Except StoreError Unit × StageStore :=
  match s.lookupLifecycle stageId with
  | (.error e, s) => (.error e, s)
  | (.ok (sigId, life), s) =>
    let life := demoteActive life stageId now
    let cur := life.statusOf stageId
    if cur = some .tombstone then
      (.error (.invalidTransition "tombstoned cannot be activated"), s)
    else
      (.ok (), s.writeBack sigId (life.push ⟨stageId, cur.getD .draft, .active, now, none⟩))

/-- Move a stage from one status to the next. -/
def moveTo (required target : StageStatus) (stageId : StageId) (now : Nat) (reason : Option String) :
    Except StoreError Unit × StageStore :=
  match s.lookupLifecycle stageId with
  | (.error e, s) => (.error e, s)
  | (.ok (sigId, life), s) =>
    match life.statusOf stageId with
    | none => (.error (.unknownStage stageId), s)
    | some cur =>
      if cur ≠ required then
        (.error (.invalidTransition (cur.debug ++ " ⇒ " ++ target.debug)), s)
      else (.ok (), s.writeBack sigId (life.push ⟨stageId, cur, target, now, reason⟩))

def «deprecate» (stageId : StageId) (now : Nat) (reason : String) : Except StoreError Unit × StageStore :=
  s.moveTo .active .deprecated stageId now (some reason)

def tombstone (stageId : StageId) (now : Nat) : Except StoreError Unit × StageStore :=
  s.moveTo .deprecated .tombstone stageId now none

end StageStore

/-! ## Runs -/

/-- One step of a run. -/
inductive Action
  | publish (sigId : SigDir) (stageId : StageId) (now : Nat) (atOnce : Bool)
  | activate (stageId : StageId) (now : Nat)
  | «deprecate» (stageId : StageId) (now : Nat) (reason : String)
  | tombstone (stageId : StageId) (now : Nat)
  | lookup (stageId : StageId)
  | lookupBulk (stages : List StageId)
  | rebuild
  /-- The `n`-th owed line is written. -/
  | append (n : Nat)
  /-- The `n`-th owed line is lost: its process died. -/
  | crash (n : Nat)

/-- Write an owed line. -/
def StageStore.append (s : StageStore) (n : Nat) : StageStore :=
  match s.owed[n]? with
  | some line => { s with lines := s.lines ++ [line], owed := s.owed.eraseIdx n }
  | none => s

def step (s : StageStore) : Action → StageStore
  | .publish sigId stageId now atOnce => s.publish sigId stageId now atOnce
  | .activate stageId now => (s.activate stageId now).2
  | .«deprecate» stageId now reason => (s.«deprecate» stageId now reason).2
  | .tombstone stageId now => (s.tombstone stageId now).2
  | .lookup stageId => (s.lookupLifecycle stageId).2
  | .lookupBulk stages => (s.lookupBulk stages).2
  | .rebuild => s.rebuildStageIndex.2
  | .append n => s.append n
  | .crash n => { s with owed := s.owed.eraseIdx n }

def run (s : StageStore) (actions : List Action) : StageStore := actions.foldl step s

/-- The lifecycles of a store, without an index. -/
def StageStore.unindexed (s : StageStore) : StageStore := { s with lines := [], owed := [] }

/-- A store without a signature. -/
def StageStore.empty : StageStore := ⟨∅, [], [], not_mem_empty⟩

/-- **The index does not show**: every lookup, alone or in a batch, answers as a full scan would. -/
def Transparent (s : StageStore) : Prop :=
  (∀ stageId, (s.lookupLifecycle stageId).1 = s.fullScan stageId) ∧
    ∀ stages, (s.lookupBulk stages).1 = stages.map fun stageId => (s.fullScan stageId).map Prod.fst

/-- A smaller signature has the stage already. -/
def ListedBefore (s : StageStore) (sigId : SigId) (stageId : StageId) : Prop :=
  ∃ smaller, compare smaller sigId = .lt ∧ (s.readLifecycle smaller).lists stageId = true

/-- **When a step keeps the index hidden.** A publish adds a stage to a signature: with its line, if no
smaller signature has the stage; without, if the index has no line for the stage or a smaller signature
has it. A line that is written late still says what a scan finds. -/
def Meets (s : StageStore) : Action → Prop
  | .publish sigId stageId _ atOnce =>
    (s.readLifecycle sigId).lists stageId = true ∨
      if atOnce then ¬ ListedBefore s sigId stageId
      else stageId ∉ s.loadStageIndex ∨ ListedBefore s sigId stageId
  | .append n => ∀ line, s.owed[n]? = some line → line.sigId = s.entryOf line.stageId
  | _ => True

/-- Every step of a run meets the condition. -/
def AllMeet (s : StageStore) : List Action → Prop
  | [] => True
  | action :: actions => Meets s action ∧ AllMeet (step s action) actions

/-! ## What a scan finds -/

section Scan

variable {s t : StageStore} {sigId : SigId} {stageId : StageId}

theorem mem_of_lists (h : (s.readLifecycle sigId).lists stageId = true) : sigId ∈ s.lifecycles := by
  by_contra hnot
  unfold StageStore.readLifecycle at h
  rw [Std.ExtTreeMap.getElem?_eq_none hnot] at h
  cases h

theorem ne_marker_of_lists (h : (s.readLifecycle sigId).lists stageId = true) : sigId ≠ missingStageMarker := by
  rintro rfl
  exact s.named (mem_of_lists h)

/-- **A scan finds the smallest signature that has the stage.** -/
theorem scan_eq_some_iff : s.scan stageId = some sigId ↔
    (s.readLifecycle sigId).lists stageId = true ∧ ¬ ListedBefore s sigId stageId := by
  have hfirst : ∀ {found : SigId}, s.scan stageId = some found →
      (s.readLifecycle found).lists stageId = true ∧ ¬ ListedBefore s found stageId := by
    intro found hfound
    obtain ⟨hlists, before, after, hkeys, hnone⟩ := find?_eq_some_iff_append.mp hfound
    refine ⟨hlists, ?_⟩
    rintro ⟨smaller, hlt, hsmaller⟩
    have hmem : smaller ∈ s.listSigs := Std.ExtTreeMap.mem_keys.mpr (mem_of_lists hsmaller)
    have hsorted : s.listSigs.Pairwise fun a b => compare a b = .lt := ordered_keys
    rw [hkeys] at hmem hsorted
    rcases mem_append.mp hmem with hbefore | hafter
    · have := hnone smaller hbefore
      rw [hsmaller] at this
      cases this
    · rcases mem_cons.mp hafter with rfl | hafter
      · rw [Std.ReflOrd.compare_self] at hlt
        cases hlt
      · -- The list is sorted, so what comes after is larger.
        have hgt := rel_of_pairwise_cons (pairwise_append.mp hsorted).2.1 hafter
        exact Std.OrientedCmp.not_lt_of_lt hlt hgt
  constructor
  · exact hfirst
  · rintro ⟨hlists, hbefore⟩
    cases hscan : s.scan stageId with
    | none =>
      have hmem : sigId ∈ s.listSigs := Std.ExtTreeMap.mem_keys.mpr (mem_of_lists hlists)
      exact absurd hlists (find?_eq_none.mp hscan sigId hmem)
    | some found =>
      obtain ⟨hfound, hfoundBefore⟩ := hfirst hscan
      cases hcmp : compare found sigId with
      | lt => exact absurd ⟨found, hcmp, hfound⟩ hbefore
      | eq => rw [Std.LawfulEqCmp.eq_of_compare hcmp]
      | gt => exact absurd ⟨sigId, Std.OrientedCmp.lt_of_gt hcmp, hlists⟩ hfoundBefore

theorem scan_eq_none_iff : s.scan stageId = none ↔ ∀ sigId, (s.readLifecycle sigId).lists stageId = false := by
  constructor
  · intro hscan sigId
    by_contra hlists
    rw [not_eq_false] at hlists
    have hmem : sigId ∈ s.listSigs := Std.ExtTreeMap.mem_keys.mpr (mem_of_lists hlists)
    exact find?_eq_none.mp hscan sigId hmem hlists
  · intro hnone
    apply find?_eq_none.mpr
    intro sigId _
    rw [hnone sigId]
    exact Bool.false_ne_true

/-- The same signatures have the same stages. -/
def SameOwners (s t : StageStore) : Prop :=
  ∀ sigId stageId, (t.readLifecycle sigId).lists stageId = (s.readLifecycle sigId).lists stageId

theorem SameOwners.scan_eq (h : SameOwners s t) (stageId : StageId) : t.scan stageId = s.scan stageId := by
  cases hscan : s.scan stageId with
  | none =>
    refine scan_eq_none_iff.mpr fun sigId => ?_
    rw [h]
    exact scan_eq_none_iff.mp hscan sigId
  | some sigId =>
    obtain ⟨hlists, hbefore⟩ := scan_eq_some_iff.mp hscan
    refine scan_eq_some_iff.mpr ⟨(h sigId stageId).trans hlists, ?_⟩
    rintro ⟨smaller, hlt, hsmaller⟩
    exact hbefore ⟨smaller, hlt, (h smaller stageId).symm.trans hsmaller⟩

theorem SameOwners.entryOf_eq (h : SameOwners s t) (stageId : StageId) : t.entryOf stageId = s.entryOf stageId := by
  unfold StageStore.entryOf
  rw [h.scan_eq]

/-- A signature is what a scan writes exactly if it is what the scan finds. -/
theorem entryOf_eq_iff (hsig : sigId ≠ missingStageMarker) :
    s.entryOf stageId = sigId ↔ s.scan stageId = some sigId := by
  unfold StageStore.entryOf
  cases s.scan stageId with
  | none => simp [hsig.symm]
  | some found => simp

theorem entryOf_eq_marker_iff : s.entryOf stageId = missingStageMarker ↔ s.scan stageId = none := by
  unfold StageStore.entryOf
  cases hscan : s.scan stageId with
  | none => simp
  | some found => simpa using ne_marker_of_lists (scan_eq_some_iff.mp hscan).1

end Scan

/-! ## Lines and what they say -/

section Lines

variable {s t : StageStore} {stageId : StageId}

/-- Every line that names a signature names one that has the stage. -/
def Sound (s : StageStore) : Prop :=
  ∀ line ∈ s.lines ++ s.owed,
    line.sigId = missingStageMarker ∨ (s.readLifecycle line.sigId).lists line.stageId = true

/-- **Every entry of the index is what a scan would write.** -/
def Indexed (s : StageStore) : Prop :=
  ∀ stageId sigId, s.loadStageIndex[stageId]? = some sigId → sigId = s.entryOf stageId

theorem indexOf_append (lines : List StageIndexEntry) (line : StageIndexEntry) :
    StageStore.indexOf (lines ++ [line]) = (StageStore.indexOf lines).insert line.stageId line.sigId := by
  simp [StageStore.indexOf]

theorem exists_line_of_index (lines : List StageIndexEntry) {sigId : SigId}
    (h : (StageStore.indexOf lines)[stageId]? = some sigId) : ⟨stageId, sigId⟩ ∈ lines := by
  induction lines using reverseRecOn with
  | nil => simp [StageStore.indexOf] at h
  | append_singleton lines line ih =>
    rw [indexOf_append, Std.ExtTreeMap.getElem?_insert] at h
    split at h
    · rename_i heq
      obtain rfl := some.inj h
      obtain rfl := Std.compare_eq_iff_eq.mp heq
      exact mem_append_right _ mem_cons_self
    · exact mem_append_left _ (ih h)

theorem Sound.index (h : Sound s) {sigId : SigId} (hindex : s.loadStageIndex[stageId]? = some sigId) :
    sigId = missingStageMarker ∨ (s.readLifecycle sigId).lists stageId = true :=
  h ⟨stageId, sigId⟩ (mem_append_left _ (exists_line_of_index s.lines hindex))

theorem entryOf_sound (s : StageStore) (stageId : StageId) : s.entryOf stageId = missingStageMarker ∨
      (s.readLifecycle (s.entryOf stageId)).lists stageId = true := by
  unfold StageStore.entryOf
  cases hscan : s.scan stageId with
  | none => exact .inl rfl
  | some sigId => exact .inr (scan_eq_some_iff.mp hscan).1

/-- An indexed stage is looked up as it is scanned. -/
theorem lookupLifecycle_of_indexed (h : Indexed s) (stageId : StageId) :
    (s.lookupLifecycle stageId).1 = s.fullScan stageId := by
  unfold StageStore.lookupLifecycle
  cases hindex : s.loadStageIndex[stageId]? with
  | none => rfl
  | some sigId =>
    have hentry : s.entryOf stageId = sigId := (h stageId sigId hindex).symm
    simp only
    split
    · rename_i hmarker
      have hscan : s.scan stageId = none := entryOf_eq_marker_iff.mp (hentry.trans hmarker)
      unfold StageStore.fullScan
      rw [hscan]
    · rename_i hmarker
      have hscan : s.scan stageId = some sigId := (entryOf_eq_iff hmarker).mp hentry
      rw [if_pos (scan_eq_some_iff.mp hscan).1]
      unfold StageStore.fullScan
      rw [hscan]

/-- Of a sound index, a wrong entry shows in a lookup. -/
theorem indexed_of_lookupLifecycle (hsound : Sound s)
    (h : ∀ stageId, (s.lookupLifecycle stageId).1 = s.fullScan stageId) : Indexed s := by
  intro stageId sigId hindex
  have hanswer := h stageId
  unfold StageStore.lookupLifecycle StageStore.fullScan at hanswer
  rw [hindex] at hanswer
  simp only at hanswer
  rcases hsound.index hindex with rfl | hlists
  · rw [if_pos rfl] at hanswer
    apply Eq.symm
    apply entryOf_eq_marker_iff.mpr
    cases hscan : s.scan stageId with
    | none => rfl
    | some found =>
      rw [hscan] at hanswer
      cases hanswer
  · rw [if_neg (ne_marker_of_lists hlists), if_pos hlists] at hanswer
    apply Eq.symm
    apply (entryOf_eq_iff (ne_marker_of_lists hlists)).mpr
    cases hscan : s.scan stageId with
    | none =>
      rw [hscan] at hanswer
      cases hanswer
    | some found =>
      rw [hscan] at hanswer
      injection hanswer with hpair
      obtain rfl : sigId = found := congrArg Prod.fst hpair
      rfl

end Lines

/-! ## Batches -/

variable {lines : List StageIndexEntry}

section Batches

variable {s : StageStore} {batch : StageStore.Batch} {stageId : StageId}

/-- **What a batch has in memory is so**: its index, its lifecycles, its list of signatures. -/
structure BatchRight (s : StageStore) (batch : StageStore.Batch) : Prop where
  index : ∀ stageId sigId, batch.index[stageId]? = some sigId → sigId = s.entryOf stageId
  sigsCache : ∀ sigId life, batch.sigsCache[sigId]? = some life → life = some (s.readLifecycle sigId)
  allSigs : ∀ sigs, batch.allSigs = some sigs → sigs = s.listSigs

theorem BatchRight.readCached (h : BatchRight s batch) (sigId : SigId) :
    (s.readCached batch sigId).1 = some (s.readLifecycle sigId) ∧ BatchRight s (s.readCached batch sigId).2 ∧
        (s.readCached batch sigId).2.lines = batch.lines := by
  unfold StageStore.readCached
  cases hcached : batch.sigsCache[sigId]? with
  | some life => exact ⟨h.sigsCache sigId life hcached, h, rfl⟩
  | none =>
    refine ⟨rfl, ⟨h.index, fun other life hlife => ?_, h.allSigs⟩, rfl⟩
    rw [Std.ExtTreeMap.getElem?_insert] at hlife
    split at hlife
    · rename_i heq
      obtain rfl := Std.compare_eq_iff_eq.mp heq
      exact (some.inj hlife).symm
    · exact h.sigsCache other life hlife

theorem BatchRight.record (h : BatchRight s batch) (stageId : StageId) :
    BatchRight s (batch.record stageId (s.entryOf stageId)) := by
  refine ⟨fun other sigId hindex => ?_, h.sigsCache, h.allSigs⟩
  unfold StageStore.Batch.record at hindex
  rw [Std.ExtTreeMap.getElem?_insert] at hindex
  split at hindex
  · rename_i heq
    obtain rfl := Std.compare_eq_iff_eq.mp heq
    exact (some.inj hindex).symm
  · exact h.index other sigId hindex

/-- Every line a batch writes is what a scan writes. -/
def LinesRight (s : StageStore) (lines : List StageIndexEntry) : Prop :=
  ∀ line ∈ lines, line.sigId = s.entryOf line.stageId

theorem LinesRight.append (h : LinesRight s lines) (stageId : StageId) :
    LinesRight s (lines ++ [⟨stageId, s.entryOf stageId⟩]) := by
  intro line hline
  rcases mem_append.mp hline with hline | hline
  · exact h line hline
  · rw [mem_singleton.mp hline]

/-- **What a step of a batch gives**: the answer of the scan, and a batch that is right. -/
def Answers (s : StageStore) (stageId : StageId) (result : Except StoreError SigId × StageStore.Batch) :
    Prop :=
  result.1 = (s.fullScan stageId).map Prod.fst ∧ BatchRight s result.2 ∧ LinesRight s result.2.lines

theorem answers_of_scan_some {sigId : SigId} (hscan : s.scan stageId = some sigId)
    (h : BatchRight s batch) (hlines : LinesRight s batch.lines) :
    Answers s stageId (.ok sigId, batch.record stageId sigId) := by
  have hentry : sigId = s.entryOf stageId := by
    unfold StageStore.entryOf
    rw [hscan]
    rfl
  refine ⟨?_, ?_, ?_⟩
  · unfold StageStore.fullScan
    rw [hscan]
    rfl
  · rw [hentry]
    exact h.record stageId
  · rw [hentry]
    exact hlines.append stageId

theorem answers_of_scan_none (hscan : s.scan stageId = none) (h : BatchRight s batch)
    (hlines : LinesRight s batch.lines) :
    Answers s stageId (.error (.unknownStage stageId), batch.record stageId missingStageMarker) := by
  have hentry : s.entryOf stageId = missingStageMarker := entryOf_eq_marker_iff.mpr hscan
  refine ⟨?_, ?_, ?_⟩
  · unfold StageStore.fullScan
    rw [hscan]
    rfl
  · rw [← hentry]
    exact h.record stageId
  · rw [← hentry]
    exact hlines.append stageId

/-- The scan of a batch, from where no signature before has the stage. -/
theorem answers_scanBulk (sigs : List SigId) (h : BatchRight s batch) (hlines : LinesRight s batch.lines)
    (hscan : s.scan stageId = sigs.find? fun sigId => (s.readLifecycle sigId).lists stageId) :
    Answers s stageId (s.scanBulk stageId sigs batch) := by
  induction sigs generalizing batch with
  | nil => exact answers_of_scan_none hscan h hlines
  | cons sigId sigs ih =>
    obtain ⟨hlife, hright, hsame⟩ := h.readCached sigId
    unfold StageStore.scanBulk
    simp only [hlife, any_some]
    rw [find?_cons] at hscan
    cases hlists : (s.readLifecycle sigId).lists stageId with
    | true =>
      rw [hlists] at hscan
      exact answers_of_scan_some hscan hright (hsame ▸ hlines)
    | false =>
      rw [hlists] at hscan
      exact ih hright (hsame ▸ hlines) hscan

theorem answers_scanAllBulk (h : BatchRight s batch) (hlines : LinesRight s batch.lines) :
    Answers s stageId (s.scanAllBulk stageId batch) := by
  have hsigs : batch.allSigs.getD s.listSigs = s.listSigs := by
    cases hall : batch.allSigs with
    | none => rfl
    | some sigs => exact h.allSigs sigs hall
  unfold StageStore.scanAllBulk
  simp only [hsigs]
  refine answers_scanBulk s.listSigs ⟨h.index, h.sigsCache, fun sigs hall => ?_⟩ hlines rfl
  exact (some.inj hall).symm

theorem answers_lookupLifecycleBulk (h : BatchRight s batch) (hlines : LinesRight s batch.lines)
    (stageId : StageId) : Answers s stageId (s.lookupLifecycleBulk stageId batch) := by
  unfold StageStore.lookupLifecycleBulk
  cases hindex : batch.index[stageId]? with
  | none => exact answers_scanAllBulk h hlines
  | some sigId =>
    have hentry : s.entryOf stageId = sigId := (h.index stageId sigId hindex).symm
    obtain ⟨hlife, hright, hsame⟩ := h.readCached sigId
    simp only [hlife, any_some]
    split
    · rename_i hmarker
      have hscan : s.scan stageId = none := entryOf_eq_marker_iff.mp (hentry.trans hmarker)
      refine ⟨?_, h, hlines⟩
      unfold StageStore.fullScan
      rw [hscan]
      rfl
    · rename_i hmarker
      have hscan : s.scan stageId = some sigId := (entryOf_eq_iff hmarker).mp hentry
      rw [if_pos (scan_eq_some_iff.mp hscan).1]
      refine ⟨?_, hright, hsame ▸ hlines⟩
      unfold StageStore.fullScan
      rw [hscan]
      rfl

/-- **A batch answers stage by stage as the scan does.** -/
theorem lookupAll_right (stages : List StageId) (h : BatchRight s batch) (hlines : LinesRight s batch.lines) :
    (s.lookupAll stages batch).1 = (stages.map fun stageId => (s.fullScan stageId).map Prod.fst) ∧
      LinesRight s (s.lookupAll stages batch).2.lines := by
  induction stages generalizing batch with
  | nil => exact ⟨rfl, hlines⟩
  | cons stageId stages ih =>
    obtain ⟨hanswer, hright, hnext⟩ := answers_lookupLifecycleBulk h hlines stageId
    obtain ⟨hrest, hall⟩ := ih hright hnext
    unfold StageStore.lookupAll
    simp only
    exact ⟨by rw [hanswer, hrest, map_cons], hall⟩

theorem batchRight_startBatch (h : Indexed s) : BatchRight s s.startBatch :=
  ⟨h, fun sigId life hlife => by simp [StageStore.startBatch] at hlife,
    fun sigs hsigs => by simp [StageStore.startBatch] at hsigs⟩

/-- **The index is hidden exactly if its entries are what a scan writes.** -/
theorem transparent_iff_indexed (hsound : Sound s) : Transparent s ↔ Indexed s := by
  constructor
  · rintro ⟨hlookup, -⟩
    exact indexed_of_lookupLifecycle hsound hlookup
  · intro h
    refine ⟨lookupLifecycle_of_indexed h, fun stages => ?_⟩
    exact (lookupAll_right stages (batchRight_startBatch h) fun line hline => by cases hline).1

end Batches

/-! ## Rebuilds -/

section Rebuild

variable {s : StageStore}

/-- An index that knows every stage of the signatures before, and nothing wrong. -/
structure Covers (s : StageStore) (before : List SigId) (existing : Std.ExtTreeMap StageId SigId) :
    Prop where
  right : ∀ stageId sigId, existing[stageId]? = some sigId → sigId = s.entryOf stageId
  known : ∀ sigId ∈ before, ∀ stageId, (s.readLifecycle sigId).lists stageId = true →
    stageId ∈ existing

variable {existing : Std.ExtTreeMap StageId SigId}

theorem rebuildSig_right {sigId : SigId} (transitions : List Transition)
    (hright : ∀ stageId owner, existing[stageId]? = some owner → owner = s.entryOf stageId)
    (hfirst : ∀ t ∈ transitions, t.stageId ∉ existing → s.entryOf t.stageId = sigId) :
    LinesRight s (StageStore.rebuildSig sigId transitions existing).1 ∧
      (∀ stageId owner, (StageStore.rebuildSig sigId transitions existing).2[stageId]? = some owner →
        owner = s.entryOf stageId) ∧ ∀ stageId, stageId ∈ (StageStore.rebuildSig sigId transitions existing).2 ↔
        stageId ∈ existing ∨ ∃ t ∈ transitions, t.stageId = stageId := by
  induction transitions generalizing existing with
  | nil =>
    refine ⟨fun line hline => ?_, hright, fun stageId => ?_⟩
    · cases hline
    · simp [StageStore.rebuildSig]
  | cons t transitions ih =>
    unfold StageStore.rebuildSig
    split
    · rename_i hmem
      obtain ⟨hlines, hrest, hkeys⟩ := ih hright fun u hu => hfirst u (mem_cons_of_mem t hu)
      refine ⟨hlines, hrest, fun stageId => ?_⟩
      rw [hkeys, exists_mem_cons_iff]
      constructor
      · rintro (h | h)
        · exact .inl h
        · exact .inr (.inr h)
      · rintro (h | rfl | h)
        · exact .inl h
        · exact .inl hmem
        · exact .inr h
    · rename_i hmem
      have hentry : s.entryOf t.stageId = sigId := hfirst t mem_cons_self hmem
      have hinserted : ∀ stageId owner, (existing.insert t.stageId sigId)[stageId]? = some owner →
          owner = s.entryOf stageId := by
        intro stageId owner howner
        rw [Std.ExtTreeMap.getElem?_insert] at howner
        split at howner
        · rename_i heq
          obtain rfl := Std.compare_eq_iff_eq.mp heq
          obtain rfl := some.inj howner
          exact hentry.symm
        · exact hright stageId owner howner
      obtain ⟨hlines, hrest, hkeys⟩ := ih hinserted fun u hu hnew =>
        hfirst u (mem_cons_of_mem t hu) fun hold =>
          hnew (mem_insert.mpr (.inr hold))
      refine ⟨fun line hline => ?_, hrest, fun stageId => ?_⟩
      · rcases mem_cons.mp hline with rfl | hline
        · exact hentry.symm
        · exact hlines line hline
      · rw [hkeys, mem_insert, Std.compare_eq_iff_eq, exists_mem_cons_iff]
        tauto

/-- The lines of the signatures that are left. -/
theorem rebuildSigs_right (sigs before : List SigId)
    (hsigs : s.listSigs = before ++ sigs) (h : Covers s before existing) :
    LinesRight s (s.rebuildSigs sigs existing) := by
  induction sigs generalizing before existing with
  | nil =>
    intro line hline
    cases hline
  | cons sigId sigs ih =>
    -- A stage of this lifecycle that is not known is in no lifecycle before.
    have hfirst : ∀ t ∈ (s.readLifecycle sigId).transitions, t.stageId ∉ existing →
        s.entryOf t.stageId = sigId := by
      intro t ht hnew
      have hlists : (s.readLifecycle sigId).lists t.stageId = true :=
        any_eq_true.mpr ⟨t, ht, beq_self_eq_true _⟩
      apply (entryOf_eq_iff (ne_marker_of_lists hlists)).mpr
      refine find?_eq_some_iff_append.mpr ⟨hlists, before, sigs, hsigs, fun owner howner => ?_⟩
      rw [not_eq_true', ← not_eq_true]
      exact fun howns => hnew (h.known owner howner t.stageId howns)
    obtain ⟨hlines, hright, hkeys⟩ :=
      rebuildSig_right (s.readLifecycle sigId).transitions h.right hfirst
    have hrest := ih (before ++ [sigId]) (by rw [hsigs, append_assoc, singleton_append])
      ⟨hright, fun owner howner stageId howns => ?_⟩
    · intro line hline
      rcases mem_append.mp hline with hline | hline
      · exact hlines line hline
      · exact hrest line hline
    · rw [hkeys]
      rcases mem_append.mp howner with howner | howner
      · exact .inl (h.known owner howner stageId howns)
      · obtain rfl := mem_singleton.mp howner
        obtain ⟨t, ht, heq⟩ := any_eq_true.mp howns
        exact .inr ⟨t, ht, eq_of_beq heq⟩

end Rebuild

/-! ## Steps -/

section Steps

variable {s t u : StageStore}

/-- **A step that moves no stage**: the index file stays, every signature has the stages it had, and
what is owed is new only where it is what a scan writes. -/
structure Quiet (s t : StageStore) : Prop where
  lines : t.lines = s.lines
  owners : SameOwners s t
  owed : ∀ line ∈ t.owed, line ∈ s.owed ∨ line.sigId = s.entryOf line.stageId

theorem Quiet.refl (s : StageStore) : Quiet s s :=
  ⟨rfl, fun _ _ => rfl, fun _ h => .inl h⟩

theorem Quiet.trans (hst : Quiet s t) (htu : Quiet t u) : Quiet s u where
  lines := htu.lines.trans hst.lines
  owners := fun sigId stageId => (htu.owners sigId stageId).trans (hst.owners sigId stageId)
  owed := by
    intro line hline
    rcases htu.owed line hline with hline | hentry
    · exact hst.owed line hline
    · exact .inr (hentry.trans (hst.owners.entryOf_eq line.stageId))

theorem quiet_owe (h : LinesRight s lines) : Quiet s (s.owe lines) where
  lines := rfl
  owners := fun _ _ => rfl
  owed := by
    intro line hline
    rcases mem_append.mp hline with hline | hline
    · exact .inl hline
    · exact .inr (h line hline)

theorem linesRight_entryOf (s : StageStore) (stageId : StageId) : LinesRight s [⟨stageId, s.entryOf stageId⟩] := by
  intro line hline
  rw [mem_singleton.mp hline]

theorem quiet_lookupLifecycle (s : StageStore) (stageId : StageId) : Quiet s (s.lookupLifecycle stageId).2 := by
  have howe : Quiet s (s.owe [⟨stageId, s.entryOf stageId⟩]) := quiet_owe (linesRight_entryOf s stageId)
  unfold StageStore.lookupLifecycle
  split
  · split
    · exact .refl s
    · split
      · exact .refl s
      · exact howe
  · exact howe

theorem lookupLifecycle_ok {stageId : StageId} {sigId : SigId}
    (h : s.lookupLifecycle stageId = (.ok (sigId, life), t)) :
    life = t.readLifecycle sigId ∧ life.lists stageId = true := by
  have hscan : ∀ {x : StageStore}, (s.fullScan stageId, x) = (.ok (sigId, life), t) →
      x.readLifecycle sigId = s.readLifecycle sigId →
      life = t.readLifecycle sigId ∧ life.lists stageId = true := by
    intro x hx hread
    obtain ⟨hanswer, rfl⟩ := Prod.mk.inj hx
    unfold StageStore.fullScan at hanswer
    cases hfound : s.scan stageId with
    | none =>
      rw [hfound] at hanswer
      cases hanswer
    | some found =>
      rw [hfound] at hanswer
      obtain ⟨rfl, rfl⟩ := Prod.mk.inj (Except.ok.inj hanswer)
      exact ⟨hread.symm, (scan_eq_some_iff.mp hfound).1⟩
  unfold StageStore.lookupLifecycle at h
  split at h
  · split at h
    · cases (congrArg Prod.fst h : Except.error _ = Except.ok _)
    · split at h
      · rename_i hlists
        obtain ⟨hanswer, rfl⟩ := Prod.mk.inj h
        obtain ⟨rfl, rfl⟩ := Prod.mk.inj (Except.ok.inj hanswer)
        exact ⟨rfl, hlists⟩
      · exact hscan h rfl
  · exact hscan h rfl

@[simp] theorem readLifecycle_writeLifecycle (s : StageStore) (sigId : SigDir) (life : Lifecycle)
    (other : SigId) : (s.writeLifecycle sigId life).readLifecycle other =
      if sigId.1 = other then life else s.readLifecycle other := by
  unfold StageStore.readLifecycle StageStore.writeLifecycle
  simp only [Std.ExtTreeMap.getElem?_insert, Std.compare_eq_iff_eq]
  split
  · rfl
  · rfl

theorem quiet_writeBack {sigId : SigId} (h : ∀ stageId, life.lists stageId = (s.readLifecycle sigId).lists stageId) :
    Quiet s (s.writeBack sigId life) := by
  unfold StageStore.writeBack
  split
  · refine ⟨rfl, fun other stageId => ?_, fun line hline => .inl hline⟩
    rw [readLifecycle_writeLifecycle]
    split
    · rename_i heq
      subst heq
      exact h stageId
    · rfl
  · exact .refl s

theorem lists_push_of_lists {t : Transition} (h : life.lists t.stageId = true)
    (stageId : StageId) : (life.push t).lists stageId = life.lists stageId := by
  rw [Lifecycle.lists_push]
  by_cases heq : t.stageId = stageId
  · rw [← heq, h, Bool.true_or]
  · rw [beq_eq_false_iff_ne.mpr heq, Bool.or_false]

/-- What is demoted is a stage of the same lifecycle. -/
theorem lists_demoteActive (life : Lifecycle) (stageId : StageId) (now : Nat) (other : StageId) :
    (StageStore.demoteActive life stageId now).lists other = life.lists other := by
  unfold StageStore.demoteActive
  split
  · rename_i prev hprev
    split
    · exact lists_push_of_lists (Lifecycle.lists_of_currentActive hprev) other
    · rfl
  · rfl

theorem quiet_activate (s : StageStore) (stageId : StageId) (now : Nat) : Quiet s (s.activate stageId now).2 := by
  have hlookup := quiet_lookupLifecycle s stageId
  unfold StageStore.activate
  split
  · rename_i h
    rw [h] at hlookup
    exact hlookup
  · rename_i sigId life t h
    rw [h] at hlookup
    obtain ⟨rfl, hlists⟩ := lookupLifecycle_ok h
    simp only
    split
    · exact hlookup
    · refine hlookup.trans (quiet_writeBack fun other => ?_)
      rw [lists_push_of_lists]
      · exact lists_demoteActive _ _ _ other
      · rw [lists_demoteActive]
        exact hlists

theorem quiet_moveTo (s : StageStore) (required target : StageStatus) (stageId : StageId) (now : Nat)
    (reason : Option String) : Quiet s (s.moveTo required target stageId now reason).2 := by
  have hlookup := quiet_lookupLifecycle s stageId
  unfold StageStore.moveTo
  split
  · rename_i h
    rw [h] at hlookup
    exact hlookup
  · rename_i sigId life t h
    rw [h] at hlookup
    obtain ⟨rfl, hlists⟩ := lookupLifecycle_ok h
    split
    · exact hlookup
    · split
      · exact hlookup
      · exact hlookup.trans (quiet_writeBack (lists_push_of_lists hlists))

theorem quiet_lookupBulk (h : Indexed s) (stages : List StageId) : Quiet s (s.lookupBulk stages).2 :=
  quiet_owe (lookupAll_right stages (batchRight_startBatch h) fun line hline => by cases hline).2

theorem quiet_rebuildStageIndex (h : Indexed s) : Quiet s s.rebuildStageIndex.2 :=
  quiet_owe (rebuildSigs_right s.listSigs [] rfl ⟨h, fun sigId hsig => by cases hsig⟩)

end Steps

/-! ## What a step keeps -/

section Kept

variable {s t : StageStore}

theorem Quiet.sound (h : Quiet s t) (hsound : Sound s) : Sound t := by
  intro line hline
  rw [h.owners]
  rcases mem_append.mp hline with hline | hline
  · rw [h.lines] at hline
    exact hsound line (mem_append_left _ hline)
  · rcases h.owed line hline with hold | hentry
    · exact hsound line (mem_append_right _ hold)
    · rw [hentry]
      exact entryOf_sound s line.stageId

theorem Quiet.indexed (h : Quiet s t) (hindexed : Indexed s) : Indexed t := by
  intro stageId sigId hindex
  rw [h.owners.entryOf_eq]
  unfold StageStore.loadStageIndex at hindex
  rw [h.lines] at hindex
  exact hindexed stageId sigId hindex

variable {stageId : StageId} {sigId : SigDir}

theorem lists_publish (hnew : (s.readLifecycle sigId).lists stageId = false) (now : Nat) (atOnce : Bool)
    (owner : SigId) (other : StageId) :
    ((s.publish sigId stageId now atOnce).readLifecycle owner).lists other = true ↔
      (s.readLifecycle owner).lists other = true ∨ owner = sigId ∧ other = stageId := by
  have hread : (s.publish sigId stageId now atOnce).readLifecycle owner =
      if sigId.1 = owner then (s.readLifecycle sigId).push ⟨stageId, .draft, .draft, now, none⟩
      else s.readLifecycle owner := by
    unfold StageStore.publish
    rw [if_neg (by simp [hnew])]
    cases atOnce with
    | true => exact readLifecycle_writeLifecycle s sigId _ owner
    | false => exact readLifecycle_writeLifecycle s sigId _ owner
  rw [hread]
  split
  · rename_i heq
    subst heq
    rw [Lifecycle.lists_push, or_eq_true, beq_iff_eq]
    exact or_congr_right ⟨fun h => ⟨rfl, h.symm⟩, fun h => h.2.symm⟩
  · rename_i hne
    constructor
    · exact .inl
    · rintro (h | ⟨rfl, -⟩)
      · exact h
      · exact absurd rfl hne

/-- **What a scan finds after a publish**: the new signature, where no smaller one has the stage. -/
theorem entryOf_publish
    (hnew : (s.readLifecycle sigId).lists stageId = false) (now : Nat) (atOnce : Bool) (other : StageId) :
    (s.publish sigId stageId now atOnce).entryOf other = sigId ∧ other = stageId ∧ ¬ ListedBefore s sigId stageId ∨
      (s.publish sigId stageId now atOnce).entryOf other = s.entryOf other ∧
        (other = stageId → ListedBefore s sigId stageId) := by
  have hlists := lists_publish hnew now atOnce
  by_cases hother : other = stageId ∧ ¬ ListedBefore s sigId stageId
  · obtain ⟨rfl, hbefore⟩ := hother
    refine .inl ⟨(entryOf_eq_iff sigId.2).mpr (scan_eq_some_iff.mpr ⟨?_, ?_⟩), rfl, hbefore⟩
    · exact (hlists sigId other).mpr (.inr ⟨rfl, rfl⟩)
    · rintro ⟨smaller, hlt, hsmaller⟩
      rcases (hlists smaller other).mp hsmaller with hold | ⟨rfl, -⟩
      · exact hbefore ⟨smaller, hlt, hold⟩
      · rw [Std.ReflOrd.compare_self] at hlt
        cases hlt
  · have hlisted : other = stageId → ListedBefore s sigId stageId := fun h =>
      Classical.not_not.mp fun hbefore => hother ⟨h, hbefore⟩
    refine .inr ⟨?_, hlisted⟩
    cases hscan : s.scan other with
    | none =>
      rw [entryOf_eq_marker_iff.mpr hscan]
      refine entryOf_eq_marker_iff.mpr (scan_eq_none_iff.mpr fun owner => ?_)
      rw [← not_eq_true, hlists]
      have hnone := scan_eq_none_iff.mp hscan
      rintro (hold | ⟨-, rfl⟩)
      · rw [hnone owner] at hold
        cases hold
      · obtain ⟨smaller, -, hsmaller⟩ := hlisted rfl
        rw [hnone smaller] at hsmaller
        cases hsmaller
    | some found =>
      obtain ⟨hfound, hbefore⟩ := scan_eq_some_iff.mp hscan
      have hne : found ≠ missingStageMarker := ne_marker_of_lists hfound
      rw [(entryOf_eq_iff hne).mpr hscan]
      apply (entryOf_eq_iff hne).mpr
      refine scan_eq_some_iff.mpr ⟨(hlists found other).mpr (.inl hfound), ?_⟩
      rintro ⟨smaller, hlt, hsmaller⟩
      rcases (hlists smaller other).mp hsmaller with hold | ⟨rfl, rfl⟩
      · exact hbefore ⟨smaller, hlt, hold⟩
      · -- The new signature is below the old answer, and a smaller one has the stage.
        obtain ⟨least, hleast, hold⟩ := hlisted rfl
        exact hbefore ⟨least, Std.TransCmp.lt_trans hleast hlt, hold⟩

theorem sound_publish (now : Nat) (atOnce : Bool)
    (hsound : Sound s) : Sound (s.publish sigId stageId now atOnce) := by
  cases hnew : (s.readLifecycle sigId).lists stageId with
  | true =>
    unfold StageStore.publish
    rw [if_pos hnew]
    exact hsound
  | false =>
    intro line hline
    rw [lists_publish hnew]
    have hmem : line ∈ s.lines ++ s.owed ∨ line = ⟨stageId, sigId⟩ := by
      unfold StageStore.publish at hline
      rw [if_neg (by simp [hnew])] at hline
      cases atOnce with
      | true =>
        rcases mem_append.mp hline with hline | hline
        · rcases mem_append.mp hline with hline | hline
          · exact .inl (mem_append_left _ hline)
          · exact .inr (mem_singleton.mp hline)
        · exact .inl (mem_append_right _ hline)
      | false =>
        rcases mem_append.mp hline with hline | hline
        · exact .inl (mem_append_left _ hline)
        · rcases mem_append.mp hline with hline | hline
          · exact .inl (mem_append_right _ hline)
          · exact .inr (mem_singleton.mp hline)
    rcases hmem with hold | rfl
    · rcases hsound line hold with hmarker | hlists
      · exact .inl hmarker
      · exact .inr (.inl hlists)
    · exact .inr (.inr ⟨rfl, rfl⟩)

theorem indexed_concat_iff {line : StageIndexEntry} (hlines : t.lines = s.lines ++ [line]) :
    Indexed t ↔ line.sigId = t.entryOf line.stageId ∧
      ∀ stageId sigId, stageId ≠ line.stageId → s.loadStageIndex[stageId]? = some sigId →
        sigId = t.entryOf stageId := by
  have hindex : t.loadStageIndex = s.loadStageIndex.insert line.stageId line.sigId := by
    unfold StageStore.loadStageIndex
    rw [hlines, indexOf_append]
  unfold Indexed
  simp only [hindex, Std.ExtTreeMap.getElem?_insert, Std.compare_eq_iff_eq]
  constructor
  · intro h
    refine ⟨h line.stageId line.sigId (if_pos rfl), fun stageId sigId hne hold => ?_⟩
    refine h stageId sigId ?_
    rw [if_neg (Ne.symm hne)]
    exact hold
  · rintro ⟨hline, hothers⟩ stageId sigId h
    split at h
    · rename_i heq
      subst heq
      rw [← some.inj h]
      exact hline
    · rename_i hne
      exact hothers stageId sigId (Ne.symm hne) h

theorem indexed_publish_iff {now : Nat} {atOnce : Bool}
    (hindexed : Indexed s) : Indexed (s.publish sigId stageId now atOnce) ↔
      Meets s (.publish sigId stageId now atOnce) := by
  show _ ↔ (s.readLifecycle sigId).lists stageId = true ∨ _
  cases hnew : (s.readLifecycle sigId).lists stageId with
  | true =>
    unfold StageStore.publish
    rw [if_pos hnew]
    simp [hindexed]
  | false =>
    rw [or_iff_right Bool.false_ne_true]
    have hentry := entryOf_publish hnew now atOnce
    cases atOnce with
    | true =>
      have hlines : (s.publish sigId stageId now true).lines = s.lines ++ [⟨stageId, sigId⟩] := by
        unfold StageStore.publish
        rw [if_neg (by simp [hnew])]
        rfl
      rw [indexed_concat_iff hlines]
      constructor
      · rintro ⟨hline, -⟩ hbefore
        rcases hentry stageId with ⟨-, -, hnot⟩ | ⟨heq, -⟩
        · exact hnot hbefore
        · -- The scan would have found the new signature before.
          rw [heq] at hline
          have hscan := (entryOf_eq_iff sigId.2).mp hline.symm
          rw [(scan_eq_some_iff.mp hscan).1] at hnew
          cases hnew
      · intro hbefore
        refine ⟨?_, fun other owner hne hold => ?_⟩
        · rcases hentry stageId with ⟨heq, -⟩ | ⟨-, hlisted⟩
          · exact heq.symm
          · exact absurd (hlisted rfl) hbefore
        · rcases hentry other with ⟨-, heq, -⟩ | ⟨heq, -⟩
          · exact absurd heq hne
          · rw [heq]
            exact hindexed other owner hold
    | false =>
      have hlines : (s.publish sigId stageId now false).lines = s.lines := by
        unfold StageStore.publish
        rw [if_neg (by simp [hnew])]
        rfl
      have hload : (s.publish sigId stageId now false).loadStageIndex = s.loadStageIndex := by
        unfold StageStore.loadStageIndex
        rw [hlines]
      unfold Indexed
      rw [hload]
      constructor
      · intro h
        by_contra hnot
        obtain ⟨hmem, hbefore⟩ := not_or.mp hnot
        rw [Classical.not_not, Std.ExtTreeMap.mem_iff_isSome_getElem?] at hmem
        obtain ⟨owner, howner⟩ := isSome_iff_exists.mp hmem
        rcases hentry stageId with ⟨heq, -⟩ | ⟨-, hlisted⟩
        · have hsame := (hindexed stageId owner howner).symm.trans ((h stageId owner howner).trans heq)
          have hscan := (entryOf_eq_iff sigId.2).mp hsame
          rw [(scan_eq_some_iff.mp hscan).1] at hnew
          cases hnew
        · exact hbefore (hlisted rfl)
      · intro h other owner hold
        rcases hentry other with ⟨-, rfl, hbefore⟩ | ⟨heq, -⟩
        · rcases h with hmem | hlisted
          · rw [Std.ExtTreeMap.getElem?_eq_none hmem] at hold
            cases hold
          · exact absurd hlisted hbefore
        · rw [heq]
          exact hindexed other owner hold

/-- What is left of a list without one element was in it. -/
theorem sound_append (n : Nat) (hsound : Sound s) : Sound (s.append n) := by
  unfold StageStore.append
  split
  · rename_i line hline
    intro other hother
    refine hsound other ?_
    rcases mem_append.mp hother with hother | hother
    · rcases mem_append.mp hother with hother | hother
      · exact mem_append_left _ hother
      · rw [mem_singleton.mp hother]
        exact mem_append_right _ (mem_of_getElem? hline)
    · exact mem_append_right _ (mem_of_mem_eraseIdx hother)
  · exact hsound

theorem indexed_append_iff {n : Nat} (hindexed : Indexed s) : Indexed (s.append n) ↔ Meets s (.append n) := by
  show _ ↔ ∀ line, s.owed[n]? = some line → line.sigId = s.entryOf line.stageId
  unfold StageStore.append
  cases hline : s.owed[n]? with
  | none => simp [hindexed]
  | some line =>
    have hlines : s.lines ++ [line] = s.lines ++ [line] := rfl
    rw [indexed_concat_iff hlines]
    constructor
    · rintro ⟨h, -⟩ other hother
      rw [← some.inj hother]
      exact h
    · intro h
      exact ⟨h line rfl, fun stageId sigId _ hold => hindexed stageId sigId hold⟩

/-- **What a step keeps.** A sound and right index stays sound, and it stays right exactly if the step
meets the condition. -/
theorem step_spec (action : Action) (hsound : Sound s) (hindexed : Indexed s) :
    Sound (step s action) ∧ (Indexed (step s action) ↔ Meets s action) := by
  have hquiet : ∀ {t : StageStore}, Quiet s t → Sound t ∧ (Indexed t ↔ True) := fun h =>
    ⟨h.sound hsound, iff_of_true (h.indexed hindexed) trivial⟩
  cases action with
  | publish sigId stageId now atOnce =>
    exact ⟨sound_publish now atOnce hsound, indexed_publish_iff hindexed⟩
  | activate stageId now => exact hquiet (quiet_activate s stageId now)
  | «deprecate» stageId now reason => exact hquiet (quiet_moveTo s _ _ stageId now _)
  | tombstone stageId now => exact hquiet (quiet_moveTo s _ _ stageId now _)
  | lookup stageId => exact hquiet (quiet_lookupLifecycle s stageId)
  | lookupBulk stages => exact hquiet (quiet_lookupBulk hindexed stages)
  | rebuild => exact hquiet (quiet_rebuildStageIndex hindexed)
  | append n => exact ⟨sound_append n hsound, indexed_append_iff hindexed⟩
  | crash n =>
    exact hquiet ⟨rfl, fun _ _ => rfl, fun line hline => .inl (mem_of_mem_eraseIdx hline)⟩

/-- A run from a state whose index is right. -/
theorem transparent_run_iff (actions : List Action) (hsound : Sound s) (hindexed : Indexed s) :
    (∀ n, Transparent (run s (actions.take n))) ↔ AllMeet s actions := by
  induction actions generalizing s with
  | nil =>
    refine iff_of_true (fun n => ?_) trivial
    rw [take_nil]
    exact (transparent_iff_indexed hsound).mpr hindexed
  | cons action actions ih =>
    obtain ⟨hnext, hmeets⟩ := step_spec action hsound hindexed
    show _ ↔ Meets s action ∧ AllMeet (step s action) actions
    constructor
    · intro h
      have hfirst : Indexed (step s action) := (transparent_iff_indexed hnext).mp (h 1)
      exact ⟨hmeets.mp hfirst, (ih hnext hfirst).mp fun n => h (n + 1)⟩
    · rintro ⟨hmeet, hrest⟩ n
      cases n with
      | zero => exact (transparent_iff_indexed hsound).mpr hindexed
      | succ n => exact (ih hnext (hmeets.mpr hmeet)).mpr hrest n

end Kept

/-! ## Whole runs -/

/-- **When the index never shows.** Of a run over a store that has no index yet, every state answers as
a full scan exactly if every step meets the condition. -/
theorem transparent_iff (s : StageStore) (actions : List Action) :
    (∀ n, Transparent (run s.unindexed (actions.take n))) ↔ AllMeet s.unindexed actions := by
  refine transparent_run_iff actions (fun line hline => by cases hline) fun stageId sigId hindex => ?_
  simp [StageStore.loadStageIndex, StageStore.indexOf, StageStore.unindexed] at hindex

/-- A stage is looked up before it is there, and its publish dies before the line is written. -/
def republished : List Action :=
  [.lookup "s", .append 0, .publish ⟨"f", by decide⟩ "s" 0 false, .crash 0]

/-- **A recorded negative answer hides a stage for good.** -/
theorem republished_hidden : ¬ ∀ (s : StageStore) (actions : List Action) (n : Nat),
      Transparent (run s.unindexed (actions.take n)) := by
  intro h
  have hlookup := (h .empty republished 4).1 "s"
  have hfound : ((run StageStore.empty.unindexed republished).fullScan "s").isOk = true := by decide
  have hhidden : ((run StageStore.empty.unindexed republished).lookupLifecycle "s").1.isOk = false := by
    decide
  rw [show republished.take 4 = republished from rfl] at hlookup
  rw [hlookup] at hhidden
  cases hhidden

end LexLang.StageIndex
