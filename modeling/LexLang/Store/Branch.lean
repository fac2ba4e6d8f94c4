/-
# LexLang.Store.Branch — branches, and the head map a branch names

A branch is a name and a head operation (`lex-store/src/branches.rs`). The map its head stands for is
computed by replay, and cached per branch in a snapshot: `headView` returns the snapshot when it was
taken at the head, extends it when the head is a pure continuation of it, and otherwise replays the
whole history; in the last two cases it saves a fresh snapshot.

`branchHead_exact` is what makes the cache invisible.
-/
import LexLang.Store.Policy
import LexLang.Vcs.Apply

namespace LexLang

open LexLang.Vcs
open Option
open Std Std.ExtTreeMap

/-! ## The store's branch files -/

/-- The name of a branch. -/
abbrev BranchName := String

/-- The branch that exists without a file. -/
def defaultBranch : BranchName := "main"

/-- The replay version of the snapshots that are trusted. -/
def headSnapshotVersion : Nat := 1

/-- One line of a branch's merge journal. -/
structure MergeRecord where
  src : BranchName
  merged : Nat
  conflicts : Nat
  deriving DecidableEq

/-- A branch file. `lastGateCheckpoint` is the operation through which the producer-block gate has
verified the branch's history. -/
structure Branch where
  name : BranchName
  parent : Option BranchName
  headOp : Option OpId
  merges : List MergeRecord
  lastGateCheckpoint : Option OpId
  deriving DecidableEq

/-- A saved head map, keyed on the head it was computed for. -/
structure HeadSnapshot where
  v : Nat
  headOp : OpId
  map : HeadMap

/-- **The store**: the op log, the branch files and their head snapshots; the stage files, with the
sig each stage is indexed under; the intent log, the attestation log and the policy file; and the
clock attestations are stamped with. -/
structure Store where
  log : OpLog
  branches : ExtTreeMap BranchName Branch
  snapshots : ExtTreeMap BranchName HeadSnapshot
  stageFiles : List (SigId × StageId) := []
  stageIndex : ExtTreeMap StageId SigId := ∅
  intents : IntentLog := ∅
  attestations : AttestationLog := []
  policy : Option PolicyFile := none
  clock : Nat := 0

/-- Why a store call fails. -/
inductive StoreError
  | io
  | unknownBranch (name : BranchName)
  | unknownOp (id : OpId)
  | unknownStage (stageId : StageId)
  | apply (error : ApplyError)
  | typeError
  | budgetExceeded (sessionId : SessionId) (cap spentAfter : UInt64)
  | producerBlocked (blocked : ProducerBlocked)
  | branchAdvanceBlocked (blocked : BranchAdvanceBlocked)
  | unsatisfiablePair (sigId : SigId) (stageId : StageId) (filedUnder : SigId)
  | contention (branch : BranchName) (attempts : Nat)
  | nonFastForward (branch : BranchName) (current attempted : OpId)
  | dependencyConflict
  | invalidTransition (message : String)
  deriving DecidableEq

/-- A fresh branch file. -/
def Branch.fresh (name : BranchName) (headOp lastGateCheckpoint : Option OpId) : Branch :=
  { name, parent := none, headOp, merges := [], lastGateCheckpoint }

/-! ## `branch_head` -/

variable (store : Store) (name : BranchName)

/-- The branch file of a name. -/
def Store.getBranch : Option Branch := store.branches[name]?

/-- The saved snapshot of a branch, when it is of the current version. -/
def Store.loadHeadSnapshot : Option HeadSnapshot :=
  store.snapshots[name]?.filter fun snap => snap.v == headSnapshotVersion

/-- Save the map computed for a head. -/
def Store.saveHeadSnapshot (headOp : OpId) (map : HeadMap) : Store :=
  { store with snapshots := store.snapshots.insert name { v := headSnapshotVersion, headOp, map } }

/-- Replay the whole history of `head`, and save the result. -/
def Store.fullHeadView (head : OpId) : HeadMap × Store :=
  let map := store.log.replay head
  (map, store.saveHeadSnapshot name head map)

/-- The branch's head map, with the store as the call leaves it. -/
def Store.headView : Except StoreError (HeadMap × Store) :=
  match store.getBranch name with
  | none => if name = defaultBranch then .ok (∅, store) else .error (.unknownBranch name)
  | some branch =>
    match branch.headOp with
    | none => .ok (∅, store)
    | some head =>
      match store.loadHeadSnapshot name with
      | none => .ok (store.fullHeadView name head)
      | some snap =>
        if snap.headOp = head then .ok (snap.map, store)
        else
          match (store.log.walkForwardSince head snap.headOp).filter
              fun recs => OpLog.continuesFrom recs snap.headOp with
          | some recs =>
            -- a pure continuation: replay what is new on top of the snapshot
            let map := replayOn snap.map (OpLog.linearize recs)
            .ok (map, store.saveHeadSnapshot name head map)
          | none => .ok (store.fullHeadView name head)

/-- The branch's head map. -/
def Store.branchHead : Except StoreError HeadMap := (store.headView name).map Prod.fst

/-! ## Runs -/

/-- Every trusted snapshot is the exact replay of the head it was computed for. -/
def SnapshotsExact (store : Store) : Prop :=
  ∀ (name : BranchName) (snap : HeadSnapshot), store.snapshots[name]? = some snap →
    snap.v = headSnapshotVersion → snap.map = store.log.replay snap.headOp

/-- An operation lands in the log under an id nothing refers to yet: no record lists it as a parent,
and no snapshot was computed for it. Its id hashes its own parents, so it cannot be known earlier. -/
structure Fresh (store : Store) (record : OperationRecord) : Prop where
  notSelf : record.opId ∉ record.op.parents
  unreferenced : ∀ child stored, store.log.get child = some stored →
    record.opId ∉ stored.op.parents
  noSnapshot : ∀ (name : BranchName) (snap : HeadSnapshot), store.snapshots[name]? = some snap →
    snap.headOp ≠ record.opId

/-- **One step of a run**: a branch file is written (a head moves forward, over a merge, or is reset
to anything), or deleted; an operation lands in the log; some branch's head map is asked for. -/
inductive Step : Store → Store → Prop
  | writeBranch (store : Store) (name : BranchName) (branch : Branch) :
      Step store { store with branches := store.branches.insert name branch }
  | deleteBranch (store : Store) (name : BranchName) :
      Step store { store with branches := store.branches.erase name }
  | land (store : Store) (record : OperationRecord) (hfresh : Fresh store record) :
      Step store { store with log := store.log.put record }
  | branchHead (store store' : Store) (name : BranchName) (map : HeadMap)
      (hview : store.headView name = .ok (map, store')) : Step store store'

/-- Any number of steps. -/
abbrev Run : Store → Store → Prop := Relation.ReflTransGen Step

section Exact

variable {store : Store} {name : BranchName}

theorem exact_of_load (hexact : SnapshotsExact store) {snap : HeadSnapshot}
    (h : store.loadHeadSnapshot name = some snap) : snap.map = store.log.replay snap.headOp := by
  unfold Store.loadHeadSnapshot at h
  obtain ⟨hget, hv⟩ := filter_eq_some_iff.mp h
  exact hexact name snap hget (by simpa using hv)

theorem SnapshotsExact.save (hexact : SnapshotsExact store) {head : OpId} {map : HeadMap}
    (hmap : map = store.log.replay head) : SnapshotsExact (store.saveHeadSnapshot name head map) := by
  intro name' snap hget hv
  unfold Store.saveHeadSnapshot at hget
  simp only [getElem?_insert] at hget
  split at hget
  · rw [← some.inj hget]
    exact hmap
  · exact hexact name' snap hget hv

/-- **One `branch_head` call**: with exact snapshots it returns the full replay of the head, and
leaves the log, the branches, and the snapshots' exactness as they were. -/
theorem headView_spec (hac : store.log.Acyclic) (hexact : SnapshotsExact store) {branch : Branch}
    {head : OpId} (hbranch : store.getBranch name = some branch) (hhead : branch.headOp = some head) :
    ∃ store', store.headView name = .ok (store.log.replay head, store') ∧
      store'.log = store.log ∧ store'.branches = store.branches ∧ SnapshotsExact store' := by
  have hfull : ∃ store', Except.ok (store.fullHeadView name head) =
        (.ok (store.log.replay head, store') : Except StoreError _) ∧
      store'.log = store.log ∧ store'.branches = store.branches ∧ SnapshotsExact store' :=
    ⟨_, rfl, rfl, rfl, hexact.save rfl⟩
  unfold Store.headView
  rw [hbranch]
  simp only [hhead]
  cases hload : store.loadHeadSnapshot name with
  | none => exact hfull
  | some snap =>
    have hsnap := exact_of_load hexact hload
    simp only
    by_cases hsame : snap.headOp = head
    · rw [if_pos hsame]
      exact ⟨store, by rw [hsnap, hsame], rfl, rfl, hexact⟩
    · rw [if_neg hsame]
      split
      · rename_i recs hrecs
        obtain ⟨hwalk, hcont⟩ := filter_eq_some_iff.mp hrecs
        have hmap : replayOn snap.map (OpLog.linearize recs) = store.log.replay head := by
          rw [hsnap, OpLog.replay_eq_replayOn hac (fun h => hsame h.symm) hwalk hcont]
        exact ⟨store.saveHeadSnapshot name head (store.log.replay head), by rw [hmap], rfl, rfl,
          hexact.save rfl⟩
      · exact hfull

variable {store' : Store}

theorem headView_keeps (hac : store.log.Acyclic) (hexact : SnapshotsExact store) {map : HeadMap}
    (h : store.headView name = .ok (map, store')) : store'.log = store.log ∧ SnapshotsExact store' := by
  cases hbranch : store.getBranch name with
  | none =>
    unfold Store.headView at h
    rw [hbranch] at h
    simp only at h
    split at h
    · cases h
      exact ⟨rfl, hexact⟩
    · cases h
  | some branch =>
    cases hhead : branch.headOp with
    | none =>
      unfold Store.headView at h
      rw [hbranch] at h
      simp only [hhead] at h
      cases h
      exact ⟨rfl, hexact⟩
    | some head =>
      obtain ⟨store'', hview, hlog, _, hexact'⟩ := headView_spec hac hexact hbranch hhead
      rw [hview] at h
      cases h
      exact ⟨hlog, hexact'⟩

/-- **One step** keeps the log acyclic and the snapshots exact. -/
theorem Step.keeps (hstep : Step store store') (hac : store.log.Acyclic)
    (hexact : SnapshotsExact store) : store'.log.Acyclic ∧ SnapshotsExact store' := by
  cases hstep with
  | writeBranch name branch | deleteBranch name => exact ⟨hac, hexact⟩
  | land record hfresh =>
    refine ⟨hac.put hfresh.notSelf hfresh.unreferenced, ?_⟩
    intro name snap hget hv
    rw [OpLog.replay_put (hfresh.noSnapshot name snap hget) hfresh.unreferenced]
    exact hexact name snap hget hv
  | branchHead _ name map hview =>
    obtain ⟨hlog, hexact'⟩ := headView_keeps hac hexact hview
    exact ⟨hlog ▸ hac, hexact'⟩

/-- **Any run** keeps them. -/
theorem Run.keeps (hrun : Run store store') (hac : store.log.Acyclic)
    (hexact : SnapshotsExact store) : store'.log.Acyclic ∧ SnapshotsExact store' := by
  induction hrun with
  | refl => exact ⟨hac, hexact⟩
  | tail _ hstep ih => exact hstep.keeps ih.1 ih.2

end Exact

/-! ## The cache is invisible -/

/-- **Incremental head replay is full head replay.** From any acyclic log and any snapshots that are
exact replays of the operations they name, after any run of head moves, landings and `branch_head`
calls: every trusted snapshot is still the exact replay of its head, and `branch_head` returns, on
every branch with a head, the fold of that head's whole history from the empty map. -/
theorem branchHead_exact {store store' : Store} (hac : store.log.Acyclic)
    (hexact : SnapshotsExact store) (hrun : Run store store') : SnapshotsExact store' ∧
      ∀ name branch head, store'.getBranch name = some branch → branch.headOp = some head → store'.branchHead name =
          .ok (replayOn ∅ (store'.log.walkForward head none)) := by
  obtain ⟨hac', hexact'⟩ := hrun.keeps hac hexact
  refine ⟨hexact', ?_⟩
  intro name branch head hbranch hhead
  obtain ⟨store'', hview, _⟩ := headView_spec hac' hexact' hbranch hhead
  unfold Store.branchHead
  rw [hview]
  rfl

/-- Two operations on one sig, and a snapshot taken at the first of them. -/
def snapshotStore : Store where
  log := OpLog.ofRecords
    [⟨"a", .v1, .new (.addType "f" "s1" none) [], .create "f" "s1"⟩,
      ⟨"b", .v1, .new (.modifyType "f" "s1" "s2" none) ["a"], .replace "f" "s1" "s2"⟩]
  branches := (∅ : ExtTreeMap BranchName Branch).insert "main" (.fresh "main" (some "b") none)
  snapshots := (∅ : ExtTreeMap BranchName HeadSnapshot).insert "main"
    { v := 1, headOp := "a", map := (∅ : HeadMap).insert "f" "s1" }

theorem snapshotStore_exact : SnapshotsExact snapshotStore := by
  intro name snap hget _
  simp only [snapshotStore, getElem?_insert] at hget
  split at hget
  · obtain rfl := some.inj hget
    decide
  · simp at hget

/-- The extended snapshot of the second operation's branch is the replay of both. -/
theorem branchHead_exact_snapshotStore : snapshotStore.branchHead "main" =
      .ok (replayOn ∅ (snapshotStore.log.walkForward "b" none)) :=
  (branchHead_exact (OpLog.acyclic_ofRecords (by decide) (by decide)) snapshotStore_exact
    .refl).2 "main" (.fresh "main" (some "b") none) "b" (by decide) rfl

end LexLang
