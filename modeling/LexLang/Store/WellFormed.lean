/-
# LexLang.Store.WellFormed — well-formed stores

A log is closed when every parent of a logged operation is logged, and hashed when every operation is
filed under its digest. In a closed log an operation that is not there yet is fresh: nothing points
to it. So a closed log that grows stays acyclic, and no head map moves (`OpLog.replay_of_le`).

`Store.WellFormed` asks this of the log, and that branch heads and head snapshots name logged
operations. Each of the store's primitive writes keeps it.
-/
import LexLang.Store.Branch

namespace LexLang

open LexLang.Vcs LexLang.Graph
open Option
open Std.ExtTreeMap

/-! ## Closed logs -/

namespace Vcs.OpLog

/-- Every parent of a logged operation is logged. -/
def Closed (log : OpLog) : Prop :=
  ∀ (id : OpId) (record : OperationRecord), log.get id = some record →
    ∀ p ∈ record.op.parents, log.get p ≠ none

/-- Every operation is filed under its digest. -/
def Hashed (digest : Digest) (log : OpLog) : Prop :=
  ∀ (id : OpId) (record : OperationRecord), log.get id = some record → record.op.opId digest = id

/-- The log has only grown. -/
def Le (log log' : OpLog) : Prop :=
  ∀ (id : OpId) (record : OperationRecord), log.get id = some record → log'.get id = some record

variable {log log' log'' : OpLog} {digest : Digest}

theorem Le.refl (log : OpLog) : log.Le log := fun _ _ h => h

theorem Le.trans (h : log.Le log') (h' : log'.Le log'') : log.Le log'' :=
  fun id record hget => h' id record (h id record hget)

variable {id : OpId}

theorem Le.get_ne_none (h : log.Le log') (hid : log.get id ≠ none) : log'.get id ≠ none := by
  obtain ⟨record, hrecord⟩ := ne_none_iff_exists'.mp hid
  rw [h id record hrecord]
  exact some_ne_none record

theorem le_put (log : OpLog) (record : OperationRecord) : log.Le (log.put record) :=
  fun _ _ h => get_put_of_some record h

theorem put_of_get {record stored : OperationRecord} (h : log.get record.opId = some stored) :
    log.put record = log := by
  unfold put
  rw [if_pos (by rw [h]; rfl)]

theorem get_put_opId (log : OpLog) (record : OperationRecord) :
    ∃ filed, (log.put record).get record.opId = some filed := by
  rw [get_put, if_pos rfl]
  cases log.get record.opId with
  | none => exact ⟨record, rfl⟩
  | some stored => exact ⟨stored, rfl⟩

theorem Le.edge (h : log.Le log') {parent : OpId} (hedge : Graph.Edge log.parentsOf id parent) :
    Graph.Edge log'.parentsOf id parent := by
  obtain ⟨record, hrecord, hp⟩ := edge_iff.mp hedge
  exact edge_iff.mpr ⟨record, h id record hrecord, hp⟩

variable {ancestor : OpId}

theorem Le.reach (h : log.Le log') (hreach : log.Reach id ancestor) :
    log'.Reach id ancestor := hreach.lift (fun x => x) fun _ _ => h.edge

theorem Closed.get_of_reach (hclosed : log.Closed) (hid : log.get id ≠ none)
    (hreach : log.Reach id ancestor) : log.get ancestor ≠ none := by
  induction hreach with
  | refl => exact hid
  | tail _ hedge _ =>
    obtain ⟨record, hrecord, hp⟩ := edge_iff.mp hedge
    exact hclosed _ record hrecord _ hp

theorem Closed.get_of_le (hclosed : log.Closed) (h : log.Le log')
    (hid : log.get id ≠ none) (hreach : log.Reach id ancestor) : log.get ancestor = log'.get ancestor := by
  obtain ⟨record, hrecord⟩ := ne_none_iff_exists'.mp (hclosed.get_of_reach hid hreach)
  rw [hrecord, h ancestor record hrecord]

/-- **A head map does not move when a closed log grows.** -/
theorem replay_of_le (hclosed : log.Closed) (h : log.Le log')
    (hid : log.get id ≠ none) : log'.replay id = log.replay id :=
  (replay_congr fun _ hreach => hclosed.get_of_le h hid hreach).symm

theorem walkBack_of_le (hclosed : log.Closed) (h : log.Le log')
    (hid : log.get id ≠ none) : log'.walkBack id none = log.walkBack id none :=
  (walkBack_congr fun _ hreach => hclosed.get_of_le h hid hreach).symm

section Put

variable {record : OperationRecord}

theorem Closed.unreferenced (hclosed : log.Closed) (hnone : log.get record.opId = none) :
    ∀ child stored, log.get child = some stored → record.opId ∉ stored.op.parents :=
  fun child stored hstored hp => hclosed child stored hstored _ hp hnone

theorem Closed.put (hclosed : log.Closed) (hparents : ∀ p ∈ record.op.parents, log.get p ≠ none) :
    (log.put record).Closed := by
  intro id stored hget p hp
  refine (le_put log record).get_ne_none ?_
  rw [get_put] at hget
  cases hold : log.get id with
  | some old =>
    rw [hold, some_or] at hget
    exact hclosed id old hold p (some.inj hget ▸ hp)
  | none =>
    rw [hold, none_or] at hget
    split at hget
    · exact hparents p (some.inj hget ▸ hp)
    · cases hget

theorem Hashed.put (hhashed : log.Hashed digest) (hrecord : record.op.opId digest = record.opId) :
    (log.put record).Hashed digest := by
  intro id stored hget
  rw [get_put] at hget
  cases hold : log.get id with
  | some old =>
    rw [hold, some_or] at hget
    exact hhashed id stored (some.inj hget ▸ hold)
  | none =>
    rw [hold, none_or] at hget
    split at hget
    · rename_i hid
      rw [← some.inj hget, hrecord, hid]
    · cases hget

/-- **A closed log stays acyclic** when an operation lands on top of logged ones. -/
theorem Acyclic.put_of_closed (hac : log.Acyclic) (hclosed : log.Closed)
    (hparents : ∀ p ∈ record.op.parents, log.get p ≠ none) : (log.put record).Acyclic := by
  cases hold : log.get record.opId with
  | some old =>
    rw [put_of_get hold]
    exact hac
  | none => exact hac.put (fun hself => hparents _ hself hold) (hclosed.unreferenced hold)

end Put

end Vcs.OpLog

/-! ## Well-formed stores -/

namespace Store

/-- The head of a branch, if the branch exists and has one. -/
def headOp (store : Store) (name : BranchName) : Option OpId :=
  (store.getBranch name).bind Branch.headOp

/-- The head map of a branch. -/
def headMap (store : Store) (name : BranchName) : HeadMap := store.log.replayHead (store.headOp name)

/-- **A well-formed store**: the log is acyclic, closed and hashed; heads and snapshots name logged
operations; and every trusted snapshot is exact. -/
structure WellFormed (digest : Digest) (store : Store) : Prop where
  acyclic : store.log.Acyclic
  closed : store.log.Closed
  hashed : store.log.Hashed digest
  heads : ∀ name head, store.headOp name = some head → store.log.get head ≠ none
  snapshotHeads : ∀ (name : BranchName) (snap : HeadSnapshot), store.snapshots[name]? = some snap →
    store.log.get snap.headOp ≠ none
  exact : SnapshotsExact store

variable {digest : Digest} {store store' : Store}

theorem WellFormed.congr (h : store.WellFormed digest) (hlog : store'.log = store.log)
    (hheads : ∀ name, store'.headOp name = store.headOp name)
    (hsnapshots : store'.snapshots = store.snapshots) : store'.WellFormed digest where
  acyclic := hlog ▸ h.acyclic
  closed := hlog ▸ h.closed
  hashed := hlog ▸ h.hashed
  heads := by
    intro name head hhead
    rw [hlog]
    rw [hheads] at hhead
    exact h.heads name head hhead
  snapshotHeads := by
    rw [hlog, hsnapshots]
    exact h.snapshotHeads
  exact := by
    unfold SnapshotsExact
    rw [hlog, hsnapshots]
    exact h.exact

/-- **An operation lands in the log.** -/
theorem WellFormed.put (h : store.WellFormed digest) {record : OperationRecord}
    (hrecord : record.op.opId digest = record.opId) (hparents : ∀ p ∈ record.op.parents, store.log.get p ≠ none) :
    WellFormed digest { store with log := store.log.put record } where
  acyclic := h.acyclic.put_of_closed h.closed hparents
  closed := h.closed.put hparents
  hashed := h.hashed.put hrecord
  heads := fun name head hhead => (OpLog.le_put _ _).get_ne_none (h.heads name head hhead)
  snapshotHeads := fun name snap hsnap =>
    (OpLog.le_put _ _).get_ne_none (h.snapshotHeads name snap hsnap)
  exact := by
    intro name snap hsnap hv
    show snap.map = (store.log.put record).replay snap.headOp
    rw [OpLog.replay_of_le h.closed (OpLog.le_put _ _) (h.snapshotHeads name snap hsnap)]
    exact h.exact name snap hsnap hv

theorem getBranch_insert (name other : BranchName) (branch : Branch) :
    getBranch { store with branches := store.branches.insert name branch } other =
      if name = other then some branch else store.getBranch other := by
  unfold getBranch
  rw [getElem?_insert]
  simp only [Std.LawfulEqCmp.compare_eq_iff_eq]

theorem headOp_insert (name other : BranchName) (branch : Branch) :
    headOp { store with branches := store.branches.insert name branch } other =
      if name = other then branch.headOp else store.headOp other := by
  unfold headOp
  rw [getBranch_insert]
  split <;> rfl

variable {name : BranchName}

/-- **A branch file is written** whose head is logged. -/
theorem WellFormed.writeBranch (h : store.WellFormed digest) {branch : Branch}
    (hbranch : ∀ head, branch.headOp = some head → store.log.get head ≠ none) :
    WellFormed digest { store with branches := store.branches.insert name branch } where
  acyclic := h.acyclic
  closed := h.closed
  hashed := h.hashed
  heads := by
    intro other head hhead
    rw [headOp_insert] at hhead
    split at hhead
    · exact hbranch head hhead
    · exact h.heads other head hhead
  snapshotHeads := h.snapshotHeads
  exact := h.exact

variable {map : HeadMap}

theorem WellFormed.saveHeadSnapshot (h : store.WellFormed digest) {head : OpId}
    (hhead : store.log.get head ≠ none) (hmap : map = store.log.replay head) :
    (store.saveHeadSnapshot name head map).WellFormed digest where
  acyclic := h.acyclic
  closed := h.closed
  hashed := h.hashed
  heads := h.heads
  snapshotHeads := by
    intro other snap hsnap
    unfold Store.saveHeadSnapshot at hsnap
    simp only [getElem?_insert] at hsnap
    split at hsnap
    · rw [← some.inj hsnap]
      exact hhead
    · exact h.snapshotHeads other snap hsnap
  exact := h.exact.save hmap

/-- A store with nothing in it. -/
def empty : Store := { log := .empty, branches := ∅, snapshots := ∅ }

theorem wellFormed_empty (digest : Digest) : empty.WellFormed digest where
  acyclic := by
    intro id hcycle
    obtain ⟨parent, hedge, _⟩ := Relation.TransGen.head'_iff.mp hcycle
    obtain ⟨record, hget, _⟩ := OpLog.edge_iff.mp hedge
    cases (OpLog.get_empty id).symm.trans hget
  closed := fun id record hget => by cases (OpLog.get_empty id).symm.trans hget
  hashed := fun id record hget => by cases (OpLog.get_empty id).symm.trans hget
  heads := fun name head hhead => by
    unfold headOp getBranch empty at hhead
    simp at hhead
  snapshotHeads := fun name snap hsnap => by
    unfold empty at hsnap
    simp at hsnap
  exact := fun name snap hsnap => by
    unfold empty at hsnap
    simp at hsnap

/-- A store that holds stages, and nothing else. -/
def ofStages (stages : List (SigId × StageId)) : Store :=
  { empty with
    stageFiles := stages
    stageIndex := stages.foldl (fun index stage => index.insertIfNew stage.2 stage.1) ∅ }

theorem wellFormed_ofStages (digest : Digest) (stages : List (SigId × StageId)) :
    (ofStages stages).WellFormed digest := (wellFormed_empty digest).congr rfl (fun _ => rfl) rfl

/-! ## `branch_head` on a well-formed store -/

theorem headOp_of_getBranch {branch : Branch}
    (h : store.getBranch name = some branch) : store.headOp name = branch.headOp := by
  unfold headOp
  rw [h]
  rfl

theorem headView_store (h : store.headView name = .ok (map, store')) :
    store' = store ∨ ∃ head, store.headOp name = some head ∧ store' = store.saveHeadSnapshot name head map := by
  unfold headView at h
  split at h
  · split at h
    · cases h
      exact .inl rfl
    · cases h
  · rename_i branch hbranch
    have hop := headOp_of_getBranch hbranch
    split at h
    · cases h
      exact .inl rfl
    · rename_i head hhead
      have hsaved : ∀ saved, store.saveHeadSnapshot name head map = saved →
          saved = store ∨ ∃ head, store.headOp name = some head ∧
            saved = store.saveHeadSnapshot name head map :=
        fun saved hsaved => .inr ⟨head, hop.trans hhead, hsaved.symm⟩
      split at h
      · cases h
        exact hsaved _ rfl
      · split at h
        · cases h
          exact .inl rfl
        · split at h
          · cases h
            exact hsaved _ rfl
          · cases h
            exact hsaved _ rfl

/-- **`branch_head` on a well-formed store** returns the branch's head map, and leaves the store
well-formed and, but for the snapshots, as it was. -/
theorem WellFormed.headView (h : store.WellFormed digest)
    (hview : store.headView name = .ok (map, store')) : map = store.headMap name ∧ store'.WellFormed digest ∧
      ∃ snapshots, store' = { store with snapshots } := by
  have hmap : map = store.headMap name := by
    unfold headMap
    cases hbranch : store.getBranch name with
    | none =>
      have hnone : store.headOp name = none := by
        unfold headOp
        rw [hbranch]
        rfl
      unfold Store.headView at hview
      rw [hbranch] at hview
      simp only at hview
      split at hview
      · cases hview
        rw [hnone]
        rfl
      · cases hview
    | some branch =>
      rw [headOp_of_getBranch hbranch]
      cases hhead : branch.headOp with
      | none =>
        unfold Store.headView at hview
        rw [hbranch] at hview
        simp only [hhead] at hview
        cases hview
        rfl
      | some head =>
        obtain ⟨_, hspec, _⟩ := headView_spec h.acyclic h.exact hbranch hhead
        rw [hspec] at hview
        cases hview
        rfl
  refine ⟨hmap, ?_⟩
  rcases headView_store hview with rfl | ⟨head, hhead, rfl⟩
  · exact ⟨h, _, rfl⟩
  · refine ⟨h.saveHeadSnapshot (h.heads name head hhead) ?_, _, rfl⟩
    rw [hmap]
    unfold headMap
    rw [hhead]
    rfl

end Store

end LexLang
