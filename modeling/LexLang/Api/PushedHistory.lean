/-
# LexLang.Api.PushedHistory — what pushes make of the history

A server that takes batches of operations and moves branch heads onto them. What it owes
(`Owes`): a refused batch changes nothing; the log stays closed, acyclic and hashed, and every record
produces what its kind can produce; and the head map a branch gets is the one that any server holding
well-formed history has for this head.

An id covers kind, parents (as a set) and intent; not `produces`, and not the order of the parents,
which the replay depends on. `pushes_keep_history` is about the pushes that do not use this freedom.
-/
import LexLang.Api.OpsBatch
import LexLang.Store.Alone
import LexLang.Store.BlobGc

namespace LexLang.Api

open LexLang.Vcs LexLang.Concurrent LexLang.Graph
open List Option

variable (digest : Digest)

/-! ## Well-formed history -/

/-- A transition the kind can produce: of the sigs and stages it names, or any entries of a merge. -/
def CanProduce (kind : OperationKind) (t : StageTransition) : Prop :=
  match kind with
  | .merge _ => ∃ entries, t = .merge entries
  | kind => t = transitionForKind kind

theorem CanProduce.eq_of_not_merge {kind : OperationKind} {t : StageTransition}
    (h : CanProduce kind t) (hkind : ∀ n, kind ≠ .merge n) : t = transitionForKind kind := by
  cases kind with
  | merge n => exact absurd rfl (hkind n)
  | _ => exact h

/-- **Well-formed history.** -/
structure WellFormedHistory (log : OpLog) : Prop where
  closed : log.Closed
  acyclic : log.Acyclic
  hashed : log.Hashed digest
  produces : ∀ id record, log.get id = some record → CanProduce record.op.kind record.produces

/-- The record lists its parents as they are hashed. -/
def ParentsAsHashed (record : OperationRecord) : Prop :=
  record.op.parents = sortedSet record.op.parents

/-- A log whose records all do. -/
def AllParentsAsHashed (log : OpLog) : Prop :=
  ∀ id record, log.get id = some record → ParentsAsHashed record

/-- **The head map that the hashed payloads determine**: every server with well-formed history that
holds the head has this map for it. -/
def Determined (head : OpId) (map : HeadMap) : Prop :=
  ∀ peer : OpLog, WellFormedHistory digest peer → AllParentsAsHashed peer → peer.get head ≠ none →
    peer.replay head = map

/-- There is no merge in the history of the head. -/
def NoMerges (log : OpLog) (head : OpId) : Prop :=
  ∀ id record, log.Reach head id → log.get id = some record → ∀ n, record.op.kind ≠ .merge n

section Determined

variable {digest} {log peer : OpLog}

/-- One id, one record, but for what the id does not cover. -/
theorem record_eq (hlog : WellFormedHistory digest log) (hpeer : WellFormedHistory digest peer)
    (hlogParents : AllParentsAsHashed log) (hpeerParents : AllParentsAsHashed peer) {id : OpId}
    {record record' : OperationRecord} (hget : log.get id = some record)
    (hget' : peer.get id = some record') (hmerge : ∀ n, record.op.kind ≠ .merge n) : record = record' := by
  have hid : record.op.opId digest = record'.op.opId digest :=
    (hlog.hashed id record hget).trans (hpeer.hashed id record' hget').symm
  obtain ⟨hkind, hparents, hintent⟩ := (opId_eq_iff digest _ _).mp hid
  have hproduces : record.produces = record'.produces := by
    rw [(hlog.produces id record hget).eq_of_not_merge hmerge,
      (hpeer.produces id record' hget').eq_of_not_merge (hkind ▸ hmerge), hkind]
  have hsame : record.op.parents = record'.op.parents := by
    rw [hlogParents id record hget, hparents, ← hpeerParents id record' hget']
  have hopId : record.opId = record'.opId :=
    (OpLog.get_opId hget).trans (OpLog.get_opId hget').symm
  obtain ⟨opId, version, ⟨kind, parents, intent⟩, produces⟩ := record
  obtain ⟨opId', version', ⟨kind', parents', intent'⟩, produces'⟩ := record'
  cases version
  cases version'
  simp only at hkind hsame hintent hproduces hopId
  rw [hkind, hsame, hintent, hproduces, hopId]

/-- Two servers hold one history of a head without merges. -/
theorem get_eq_of_reach (hlog : WellFormedHistory digest log)
    (hpeer : WellFormedHistory digest peer) (hlogParents : AllParentsAsHashed log)
    (hpeerParents : AllParentsAsHashed peer) {head : OpId} (hhead : log.get head ≠ none)
    (hhead' : peer.get head ≠ none) (hmerges : NoMerges log head) {id : OpId}
    (hreach : log.Reach head id) : log.get id = peer.get id := by
  -- along the path: both hold the operation, and with it the same parents
  have hboth : log.get id ≠ none ∧ peer.get id ≠ none := by
    induction hreach with
    | refl => exact ⟨hhead, hhead'⟩
    | @tail child parent hchild hedge ih =>
      obtain ⟨record, hget, hp⟩ := OpLog.edge_iff.mp hedge
      obtain ⟨record', hget'⟩ := ne_none_iff_exists'.mp ih.2
      have heq := record_eq hlog hpeer hlogParents hpeerParents hget hget'
        (hmerges child record hchild hget)
      exact ⟨hlog.closed child record hget parent hp,
        hpeer.closed child record' hget' parent (heq ▸ hp)⟩
  obtain ⟨record, hget⟩ := ne_none_iff_exists'.mp hboth.1
  obtain ⟨record', hget'⟩ := ne_none_iff_exists'.mp hboth.2
  rw [hget, hget', record_eq hlog hpeer hlogParents hpeerParents hget hget' (hmerges id record hreach hget)]

/-- **A head without merges has one map.** -/
theorem determined_replay (hlog : WellFormedHistory digest log)
    (hlogParents : AllParentsAsHashed log) {head : OpId} (hhead : log.get head ≠ none)
    (hmerges : NoMerges log head) : Determined digest head (log.replay head) :=
  fun _ hpeer hpeerParents hhead' => (OpLog.replay_congr fun _ hreach =>
    get_eq_of_reach hlog hpeer hlogParents hpeerParents hhead hhead' hmerges hreach).symm

end Determined

/-! ## Landing what was admitted -/

section Landing

variable {digest} {log : OpLog}

/-- **One put** of a record that is filed under its hash and rests on stored ones. -/
theorem WellFormedHistory.put (h : WellFormedHistory digest log) {record : OperationRecord}
    (hid : record.op.opId digest = record.opId) (hparents : ∀ p ∈ record.op.parents, log.get p ≠ none)
    (hproduces : log.get record.opId = none → CanProduce record.op.kind record.produces) :
    WellFormedHistory digest (log.put record) where
  closed := h.closed.put hparents
  acyclic := h.acyclic.put_of_closed h.closed hparents
  hashed := h.hashed.put hid
  produces := by
    intro id stored hget
    rw [OpLog.get_put] at hget
    cases hold : log.get id with
    | some old =>
      rw [hold, some_or] at hget
      exact h.produces id stored (some.inj hget ▸ hold)
    | none =>
      rw [hold, none_or] at hget
      split at hget
      · next hid =>
        obtain rfl := some.inj hget
        exact hproduces (hid ▸ hold)
      · cases hget

theorem AllParentsAsHashed.put (h : AllParentsAsHashed log) {record : OperationRecord}
    (hrecord : log.get record.opId = none → ParentsAsHashed record) : AllParentsAsHashed (log.put record) := by
  intro id stored hget
  rw [OpLog.get_put] at hget
  cases hold : log.get id with
  | some old =>
    rw [hold, some_or] at hget
    exact h id stored (some.inj hget ▸ hold)
  | none =>
    rw [hold, none_or] at hget
    split at hget
    · next hid =>
      obtain rfl := some.inj hget
      exact hrecord (hid ▸ hold)
    · cases hget

theorem le_foldl_put (records : List OperationRecord) (log : OpLog) : log.Le (records.foldl OpLog.put log) := by
  induction records generalizing log with
  | nil => exact OpLog.Le.refl log
  | cons record records ih => exact (OpLog.le_put log record).trans (ih _)

/-- **The first records of an admitted batch** are put on top of stored ones. The invariant: what the
batch has listed so far is stored by now. -/
theorem keep_of_admitted {start : OpLog} {batchIds : List OpId} {records : List OperationRecord}
    (hadmitted : Admitted digest start batchIds records) (hle : start.Le log)
    (hids : ∀ id ∈ batchIds, log.get id ≠ none) (hmeets : ∀ record ∈ records, start.get record.opId = none →
      CanProduce record.op.kind record.produces ∧ ParentsAsHashed record)
    (h : WellFormedHistory digest log) (hparents : AllParentsAsHashed log) (n : Nat) :
    WellFormedHistory digest ((records.take n).foldl OpLog.put log) ∧
      AllParentsAsHashed ((records.take n).foldl OpLog.put log) := by
  induction records generalizing log batchIds n with
  | nil =>
    rw [take_nil]
    exact ⟨h, hparents⟩
  | cons record records ih =>
    obtain ⟨⟨hid, hknown, -⟩, hrest⟩ := hadmitted
    cases n with
    | zero => exact ⟨h, hparents⟩
    | succ n =>
      have hstored : ∀ p ∈ record.op.parents, log.get p ≠ none := by
        intro p hp
        rcases hknown p hp with hp | hp
        · exact hle.get_ne_none hp
        · exact hids p hp
      have hnew : log.get record.opId = none →
          CanProduce record.op.kind record.produces ∧ ParentsAsHashed record := by
        intro hnone
        refine hmeets record mem_cons_self ?_
        by_contra hstart
        exact hle.get_ne_none hstart hnone
      refine ih hrest (hle.trans (OpLog.le_put log record)) ?_
        (fun r hr => hmeets r (mem_cons_of_mem _ hr))
        (h.put hid hstored fun hnone => (hnew hnone).1)
        (hparents.put fun hnone => (hnew hnone).2) n
      intro id hmem
      rcases mem_cons.mp hmem with rfl | hmem
      · obtain ⟨filed, hfiled⟩ := OpLog.get_put_opId log record
        rw [hfiled]
        exact some_ne_none filed
      · exact (OpLog.le_put log record).get_ne_none (hids id hmem)

end Landing

/-! ## Moving a head -/

theorem ends_onStore {ρ : Type} {p : StoreProg ρ} {Q : Except FileError ρ → FileStore → Prop} {s : FileStore} :
    Ends (onStore p) Q s ↔
      Alone p (fun result after => Q (result.mapError .store) { s with store := after }) s.store := by
  have hpart := @Prog.wp_onPart Store Event Bool FileStore FileEvent _ FileStore.store
    (fun store s => { s with store }) (fun event s => .store s.now event)
    (fun _ _ => rfl) (fun _ _ _ => rfl) (fun _ => rfl) p.run
    (fun result after => Q (result.mapError .store) after) s
  unfold Ends Alone onStore
  rw [ExceptT.run_mk, Prog.wp_bind]
  exact hpart

/-- **A fast-forward push** writes a branch file or nothing; if it succeeds, the branch is at the
head. -/
theorem alone_advanceBranchHeadFf (branch : BranchName) (newHead : OpId) (store : Store) :
    Alone (advanceBranchHeadFf branch newHead) (fun result after =>
      after.log = store.log ∧ after.snapshots = store.snapshots ∧
        ∀ advance, result = .ok advance → after.headOp branch = some newHead) store := by
  have hrefused : ∀ e : StoreError, (store.log = store.log ∧ store.snapshots = store.snapshots ∧
      ∀ advance, (.error e : Except StoreError BranchAdvance) = .ok advance →
        store.headOp branch = some newHead) := fun e => ⟨rfl, rfl, nofun⟩
  refine alone_bind.mpr (alone_query.mpr ⟨hrefused _, ?_⟩)
  simp only
  cases hcur : store.headOp branch with
  | none =>
    refine alone_bind.mpr (alone_query.mpr ⟨hrefused _, ?_⟩)
    cases store.checkPairsSatisfiable (store.log.replay newHead).toList with
    | error e => exact hrefused e
    | ok _ =>
      refine alone_access.mpr ⟨hrefused _, rfl, rfl, fun _ _ => ?_⟩
      show (store.writeBranch branch _).headOp branch = _
      rw [headOp_writeBranch, if_pos rfl]
      rfl
  | some cur =>
    simp only
    split
    · next hsame =>
      refine ⟨rfl, rfl, fun _ _ => ?_⟩
      rw [hcur, hsame]
    · refine alone_bind.mpr (alone_query.mpr ⟨hrefused _, ?_⟩)
      simp only
      split
      · refine alone_bind.mpr (alone_query.mpr ⟨hrefused _, ?_⟩)
        cases store.checkPairsSatisfiable (store.log.replay newHead).toList with
        | error e => exact hrefused e
        | ok _ =>
          refine alone_bind.mpr (alone_bind.mpr (alone_access.mpr ⟨hrefused _, ?_⟩))
          cases store.branchToAdvance branch with
          | none => exact hrefused _
          | some file =>
            refine alone_access.mpr ⟨hrefused _, rfl, rfl, fun _ _ => ?_⟩
            show (store.writeBranch branch (file.advance newHead)).headOp branch = _
            rw [headOp_writeBranch, if_pos rfl]
            rfl
      · exact hrefused _

/-! ## Requests -/

variable (files : FilesEnv) (limits : Option BlobLimits)

/-- A request that pushes. -/
inductive PushRequest
  | opsBatch (body : Option (List OperationRecord))
  | advanceBranchHead (branch : BranchName) (newHead : OpId)

/-- What is answered. -/
inductive PushResponse
  | batch (result : Except BatchError BatchReport)
  | advance (result : Except FileError BranchAdvance)

/-- **Serve a request.** -/
def servePush : PushRequest → Prog FileStore FileEvent Bool PushResponse
  | .opsBatch body => (opsBatchHandler digest files limits body).run >>= fun result =>
    .ret (.batch result)
  | .advanceBranchHead branch newHead => (onStore (advanceBranchHeadFf branch newHead)).run >>=
      fun result => .ret (.advance result)

/-- **What the server owes for a request**: well-formed history, whatever happens; nothing changed by
a batch it refuses; and on a branch it moves to a stored operation, the head map that this head has
everywhere. -/
def Owes (s : FileStore) (request : PushRequest) (response : PushResponse) (after : FileStore) : Prop :=
  WellFormedHistory digest after.store.log ∧
    match request, response with
    | .opsBatch _, .batch (.error e) => e.IsRejection → after.store.log = s.store.log
    | .advanceBranchHead branch newHead, .advance (.ok _) => s.store.log.get newHead ≠ none →
        ∃ map, after.store.branchHead branch = .ok map ∧ Determined digest newHead map
    | _, _ => True

/-- What it owes for every request of a run, each with the environment's answers to it. -/
def OwesAll (s : FileStore) : List (PushRequest × (Nat → Bool)) → Prop
  | [] => True
  | (request, answers) :: requests =>
    Owes digest s request ((servePush digest files limits request).run answers s).1
      ((servePush digest files limits request).run answers s).2 ∧
    OwesAll ((servePush digest files limits request).run answers s).2 requests

/-- **A push that leaves nothing to what ids do not cover.** Of a batch: each record that is not
stored yet produces what its kind can produce, and lists its parents as they are hashed. Of a head
that a branch is moved to: there is no merge in its history. -/
def PushRequest.Plain (s : FileStore) : PushRequest → Prop
  | .opsBatch (some records) => ∀ record ∈ records, s.store.log.get record.opId = none →
      CanProduce record.op.kind record.produces ∧ ParentsAsHashed record
  | .opsBatch none => True
  | .advanceBranchHead _ newHead => NoMerges s.store.log newHead

/-- Every request of a run is, when it is made. -/
def AllPlain (s : FileStore) : List (PushRequest × (Nat → Bool)) → Prop
  | [] => True
  | (request, answers) :: requests =>
    request.Plain s ∧ AllPlain ((servePush digest files limits request).run answers s).2 requests

/-- **A server to push to**: its store is well-formed, and so are the records it has. -/
structure Ready (s : FileStore) : Prop where
  wellFormed : s.store.WellFormed digest
  produces : ∀ id record, s.store.log.get id = some record →
    CanProduce record.op.kind record.produces
  parents : AllParentsAsHashed s.store.log

/-! ## Runs -/

/-- What holds at any time: a branch may be at an operation that is not stored, a snapshot is not. -/
structure Steady (s : FileStore) : Prop where
  history : WellFormedHistory digest s.store.log
  parents : AllParentsAsHashed s.store.log
  snapshotHeads : ∀ (name : BranchName) (snap : HeadSnapshot),
    s.store.snapshots[name]? = some snap → s.store.log.get snap.headOp ≠ none
  exact : SnapshotsExact s.store

section Runs

variable {digest} {s : FileStore}

theorem Ready.kept (h : Ready digest s) : Steady digest s where
  history := ⟨h.wellFormed.closed, h.wellFormed.acyclic, h.wellFormed.hashed, h.produces⟩
  parents := h.parents
  snapshotHeads := h.wellFormed.snapshotHeads
  exact := h.wellFormed.exact

theorem Steady.of_le (h : Steady digest s) {after : FileStore} (hle : s.store.log.Le after.store.log)
    (hsnapshots : after.store.snapshots = s.store.snapshots) (hhistory : WellFormedHistory digest after.store.log)
    (hparents : AllParentsAsHashed after.store.log) : Steady digest after where
  history := hhistory
  parents := hparents
  snapshotHeads := fun name snap hsnap =>
    hle.get_ne_none (h.snapshotHeads name snap (hsnapshots ▸ hsnap))
  exact := by
    intro name snap hsnap hv
    rw [hsnapshots] at hsnap
    rw [OpLog.replay_of_le h.history.closed hle (h.snapshotHeads name snap hsnap)]
    exact h.exact name snap hsnap hv

/-- **One batch.** -/
theorem Steady.opsBatch (h : Steady digest s) (body : Option (List OperationRecord))
    (hplain : (PushRequest.opsBatch body).Plain s) :
    Ends (opsBatchHandler digest files limits body) (fun result after =>
      Steady digest after ∧ Owes digest s (.opsBatch body) (.batch result) after) s := by
  refine (ends_opsBatchHandler digest files limits body).mono fun result after hend => ?_
  rcases hend with ⟨rfl, e, rfl⟩ | ⟨records, rfl, hadmitted, n, rfl, hresult⟩
  · exact ⟨h, h.history, fun _ => rfl⟩
  · obtain ⟨hhistory, hparents⟩ := keep_of_admitted hadmitted (OpLog.Le.refl _)
      (fun _ hid => absurd hid not_mem_nil) hplain h.history h.parents n
    refine ⟨h.of_le (le_foldl_put _ _) rfl hhistory hparents, hhistory, ?_⟩
    rcases hresult with ⟨-, report, rfl⟩ | ⟨e, rfl⟩
    · trivial
    · exact fun hrejection => absurd hrejection (by simp [BatchError.IsRejection, BatchError.status])

/-- **One move of a head.** -/
theorem Steady.advanceBranchHead (h : Steady digest s) (branch : BranchName) (newHead : OpId)
    (hplain : (PushRequest.advanceBranchHead branch newHead).Plain s) :
    Ends (onStore (advanceBranchHeadFf branch newHead)) (fun result after => Steady digest after ∧
        Owes digest s (.advanceBranchHead branch newHead) (.advance result) after) s := by
  refine ends_onStore.mpr ((alone_advanceBranchHeadFf branch newHead s.store).mono ?_)
  intro result after ⟨hlog, hsnapshots, hhead⟩
  have hkept : Steady digest { s with store := after } :=
    h.of_le (hlog ▸ OpLog.Le.refl _) hsnapshots (hlog ▸ h.history) (hlog ▸ h.parents)
  refine ⟨hkept, hkept.history, ?_⟩
  cases result with
  | error e => trivial
  | ok advance =>
    intro hstored
    obtain ⟨file, hfile, hfileHead⟩ := bind_eq_some_iff.mp (hhead advance rfl)
    obtain ⟨_, hview, -⟩ := headView_spec hkept.history.acyclic hkept.exact hfile hfileHead
    refine ⟨after.log.replay newHead, ?_, ?_⟩
    · show (after.headView branch).map Prod.fst = _
      rw [hview]
      rfl
    · rw [hlog]
      exact determined_replay h.history h.parents hstored hplain

theorem Steady.servePush (h : Steady digest s) (request : PushRequest) (hplain : request.Plain s) :
    (servePush digest files limits request).wp (fun response after =>
      Steady digest after ∧ Owes digest s request response after) s := by
  cases request with
  | opsBatch body => exact (Prog.wp_bind _ _ _ _).mpr (h.opsBatch files limits body hplain)
  | advanceBranchHead branch newHead =>
    exact (Prog.wp_bind _ _ _ _).mpr (h.advanceBranchHead branch newHead hplain)

/-- **Pushed history is well-formed history** in every run of plain requests: after each of them the
log is closed, acyclic, hashed and records what kinds can produce; a refused batch has changed
nothing; and a branch that was moved has the head map that the payloads determine. -/
theorem pushes_keep_history (hready : Ready digest s) (requests : List (PushRequest × (Nat → Bool)))
    (hplain : AllPlain digest files limits s requests) : OwesAll digest files limits s requests := by
  have hrun : ∀ (requests : List (PushRequest × (Nat → Bool))) (s : FileStore), Steady digest s →
      AllPlain digest files limits s requests → OwesAll digest files limits s requests := by
    intro requests
    induction requests with
    | nil => exact fun _ _ _ => trivial
    | cons first requests ih =>
      obtain ⟨request, answers⟩ := first
      intro s h hplain
      obtain ⟨hkept, howes⟩ := Prog.run_of_wp (h.servePush files limits request hplain.1) answers
      exact ⟨howes, ih _ hkept hplain.2⟩
  exact hrun requests s hready.kept hplain

end Runs

/-! ## One type -/

/-- A short id for the operation that adds a type. -/
noncomputable def pushDigest : Digest :=
  .ofTable [((Operation.new (.addType "f" "s1" none) []).canonicalForm, "g")] (by decide) (by decide)

/-- A server with nothing in it. -/
def emptyServer : FileStore where
  store := .empty
  blobs := ∅
  blobRefs := []

theorem ready_emptyServer : Ready pushDigest emptyServer where
  wellFormed := Store.wellFormed_empty _
  produces := fun id record hget => by cases (OpLog.get_empty id).symm.trans hget
  parents := fun id record hget => by cases (OpLog.get_empty id).symm.trans hget

/-- The operation, as it is made. -/
def honestRecord : OperationRecord :=
  ⟨"g", .v1, .new (.addType "f" "s1" none) [], .create "f" "s1"⟩

/-- The operation, said to bind another sig. -/
def forgedRecord : OperationRecord :=
  ⟨"g", .v1, .new (.addType "f" "s1" none) [], .create "h" "s1"⟩

/-- All I/O works. -/
def allWorks : Nat → Bool := fun _ => true

/-- A batch and a move onto it. -/
theorem pushes_keep_history_honest : OwesAll pushDigest twoFiles none emptyServer
      [(.opsBatch (some [honestRecord]), allWorks), (.advanceBranchHead "main" "g", allWorks)] := by
  have hlog : ((servePush pushDigest twoFiles none (.opsBatch (some [honestRecord]))).run allWorks
      emptyServer).2.store.log = OpLog.empty.put honestRecord := by
    rfl
  refine pushes_keep_history twoFiles none ready_emptyServer _ ⟨?_, ?_, trivial⟩
  · intro record hrecord _
    obtain rfl := mem_singleton.mp hrecord
    exact ⟨rfl, rfl⟩
  · intro id record _ hget n
    rw [hlog, OpLog.get_put, OpLog.get_empty, none_or] at hget
    split at hget
    · obtain rfl := some.inj hget
      exact nofun
    · cases hget

/-- The forged record is stored, under the id of the honest one. -/
theorem forged_batch : Ready pushDigest emptyServer ∧ ¬ OwesAll pushDigest twoFiles none emptyServer
      [(.opsBatch (some [forgedRecord]), allWorks)] := by
  refine ⟨ready_emptyServer, fun howes => ?_⟩
  have hget : ((servePush pushDigest twoFiles none (.opsBatch (some [forgedRecord]))).run allWorks
      emptyServer).2.store.log.get "g" = some forgedRecord := by
    rfl
  have hproduces := howes.1.1.produces "g" forgedRecord hget
  exact absurd hproduces (by simp [CanProduce, forgedRecord, transitionForKind, Operation.new])

end LexLang.Api
