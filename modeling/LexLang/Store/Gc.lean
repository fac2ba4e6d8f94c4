/-
# LexLang.Store.Gc — garbage collection of operations, and of the blobs after it

`plan_gc` (`lex-store/src/gc.rs`) keeps what branch heads reach, what the retention predicates match,
and the ancestors of both; `apply_gc` evicts the rest. `plan_blob_gc` plans once more, on the log that
is left and with the predicates of the policy file alone, and marks the blobs those operations name.

A `Candidate` has no protection of its own.
-/
import LexLang.Store.BlobGc
import LexLang.Vcs.PredicateEval

namespace LexLang

open LexLang.Vcs
open List Std.ExtTreeMap

/-! ## Plans -/

/-- Why an operation survives. -/
inductive RetentionReason
  | reachableFromBranch
  /-- The index counts the predicates of the command line first, then the policy's. -/
  | matchedPredicate (i : Nat)
  | parentOfRetained
  deriving DecidableEq

/-- **What a pass keeps and what it deletes.** -/
structure GcPlan where
  retained : Std.ExtTreeMap OpId RetentionReason
  toDelete : List OpId

/-- Retain records; an earlier reason stays. -/
def retainRecords (reason : RetentionReason) (retained : Std.ExtTreeMap OpId RetentionReason)
    (records : List OperationRecord) : Std.ExtTreeMap OpId RetentionReason :=
  records.foldl (fun retained record => retained.insertIfNew record.opId reason) retained

/-- Evict operations. -/
def evictRecords (records : Std.ExtTreeMap OpId OperationRecord) (victims : List OpId) :
    Std.ExtTreeMap OpId OperationRecord :=
  victims.foldl (fun records id => records.erase id) records

theorem getElem?_evictRecords (victims : List OpId) (records : Std.ExtTreeMap OpId OperationRecord)
    (id : OpId) : (evictRecords records victims)[id]? = if id ∈ victims then none else records[id]? := by
  induction victims generalizing records with
  | nil => rfl
  | cons first victims ih =>
    show (evictRecords (records.erase first) victims)[id]? = _
    rw [ih, Std.ExtTreeMap.getElem?_erase]
    by_cases hid : id ∈ victims
    · rw [if_pos hid, if_pos (mem_cons_of_mem _ hid)]
    · rw [if_neg hid]
      refine if_congr ?_ rfl rfl
      rw [Std.compare_eq_iff_eq, mem_cons, or_iff_left hid, eq_comm]

/-- The log without some operations. -/
def Vcs.OpLog.evict (log : OpLog) (victims : List OpId) : OpLog where
  records := evictRecords log.records victims
  keyed := by
    intro id record h
    rw [getElem?_evictRecords] at h
    split at h
    · cases h
    · exact log.keyed id record h

namespace Store

variable (store : Store)

/-- **Plan a pass**, with the predicates of the command line and those of the policy file. -/
def planGc (cliRetain policyRetain : List Predicate) : GcPlan :=
  let heads := store.branches.toList.filterMap fun entry => entry.2.headOp
  let reached := heads.foldl
    (fun retained head => retainRecords .reachableFromBranch retained (store.log.walkBack head none)) ∅
  let matched := (cliRetain ++ policyRetain).zipIdx.foldl
    (fun retained entry =>
      retainRecords (.matchedPredicate entry.2) retained (entry.1.evaluate store.log)) reached
  let retained := matched.keys.foldl
    (fun retained id => retainRecords .parentOfRetained retained (store.log.walkBack id none)) matched
  { retained, toDelete := store.log.records.keys.filter fun id => !retained.contains id }

/-- Evict what a plan says. -/
def applyGc (plan : GcPlan) : Store := { store with log := store.log.evict plan.toDelete }

/-- **What has to stay**: what a branch head reaches, or an operation that a predicate matches. -/
def Needed (retain : List Predicate) (id : OpId) : Prop :=
  ∃ root, ((∃ name, store.headOp name = some root) ∨
      ∃ p ∈ retain, ∃ record ∈ p.evaluate store.log, record.opId = root) ∧
    store.log.Reach root id

/-- A candidate that is still to be decided on. -/
def OpenCandidate (id : OpId) : Prop := ∃ sigId stageId, (id, stageId) ∈ store.listCandidates sigId

end Store

/-! ## What a plan keeps -/

variable {record : OperationRecord}

section Plan

variable {store : Store}

variable {retained : Std.ExtTreeMap OpId RetentionReason} {id : OpId}

theorem mem_retainRecords {reason : RetentionReason}
    (records : List OperationRecord) : id ∈ retainRecords reason retained records ↔
      id ∈ retained ∨ ∃ record ∈ records, record.opId = id := by
  induction records generalizing retained with
  | nil => simp [retainRecords]
  | cons first records ih =>
    show id ∈ retainRecords reason (retained.insertIfNew first.opId reason) records ↔ _
    rw [ih, mem_insertIfNew, Std.compare_eq_iff_eq, exists_mem_cons_iff]
    tauto

theorem mem_foldl_retainRecords {α : Type} (reason : α → RetentionReason)
    (records : α → List OperationRecord) (xs : List α) :
    id ∈ xs.foldl (fun retained x => retainRecords (reason x) retained (records x)) retained ↔
      id ∈ retained ∨ ∃ x ∈ xs, ∃ record ∈ records x, record.opId = id := by
  induction xs generalizing retained with
  | nil => simp
  | cons first xs ih =>
    rw [foldl_cons, ih, mem_retainRecords, exists_mem_cons_iff, or_assoc]

theorem exists_mem_walkBack_iff {log : OpLog} {head : OpId} :
    (∃ record ∈ log.walkBack head none, record.opId = id) ↔ log.Reach head id ∧ log.get id ≠ none := by
  constructor
  · rintro ⟨record, hrecord, rfl⟩
    obtain ⟨hget, hreach⟩ := OpLog.mem_walkBack_iff.mp hrecord
    exact ⟨hreach, by simp [hget]⟩
  · rintro ⟨hreach, hget⟩
    obtain ⟨record, hrecord⟩ := Option.ne_none_iff_exists'.mp hget
    obtain rfl := OpLog.get_opId hrecord
    exact ⟨record, OpLog.mem_walkBack_iff.mpr ⟨hrecord, hreach⟩, rfl⟩

theorem mem_heads_iff {head : OpId} : head ∈ (store.branches.toList.filterMap fun entry => entry.2.headOp) ↔
      ∃ name, store.headOp name = some head := by
  rw [mem_filterMap]
  constructor
  · rintro ⟨⟨name, branch⟩, hmem, hhead⟩
    refine ⟨name, Option.bind_eq_some_iff.mpr ⟨branch, ?_, hhead⟩⟩
    exact Std.ExtTreeMap.mem_toList_iff_getElem?_eq_some.mp hmem
  · rintro ⟨name, hname⟩
    obtain ⟨branch, hbranch, hhead⟩ := Option.bind_eq_some_iff.mp hname
    exact ⟨(name, branch), Std.ExtTreeMap.mem_toList_iff_getElem?_eq_some.mpr hbranch, hhead⟩

variable {cliRetain policyRetain : List Predicate}

/-- **A plan retains exactly what is needed.** -/
theorem mem_planGc : id ∈ (store.planGc cliRetain policyRetain).retained ↔
      store.Needed (cliRetain ++ policyRetain) id ∧ store.log.get id ≠ none := by
  unfold Store.planGc
  simp only
  rw [mem_foldl_retainRecords (fun _ => .parentOfRetained) fun id => store.log.walkBack id none]
  simp only [Std.ExtTreeMap.mem_keys, exists_mem_walkBack_iff]
  have hmatched : ∀ {id : OpId}, id ∈ (cliRetain ++ policyRetain).zipIdx.foldl
      (fun retained entry =>
        retainRecords (.matchedPredicate entry.2) retained (entry.1.evaluate store.log))
      ((store.branches.toList.filterMap fun entry => entry.2.headOp).foldl
        (fun retained head =>
          retainRecords .reachableFromBranch retained (store.log.walkBack head none)) ∅) ↔
      (∃ name head, store.headOp name = some head ∧ store.log.Reach head id ∧ store.log.get id ≠ none) ∨
        ∃ p ∈ cliRetain ++ policyRetain, ∃ record ∈ p.evaluate store.log, record.opId = id := by
    intro id
    rw [mem_foldl_retainRecords (fun entry => .matchedPredicate entry.2)
        fun entry : Predicate × Nat => entry.1.evaluate store.log,
      mem_foldl_retainRecords (fun _ => .reachableFromBranch) fun id => store.log.walkBack id none]
    refine or_congr ?_ ?_
    · rw [or_iff_right not_mem_empty]
      constructor
      · rintro ⟨head, hhead, hwalk⟩
        obtain ⟨name, hname⟩ := mem_heads_iff.mp hhead
        exact ⟨name, head, hname, exists_mem_walkBack_iff.mp hwalk⟩
      · rintro ⟨name, head, hname, hwalk⟩
        exact ⟨head, mem_heads_iff.mpr ⟨name, hname⟩, exists_mem_walkBack_iff.mpr hwalk⟩
    · constructor
      · rintro ⟨⟨p, i⟩, hmem, hrecord⟩
        exact ⟨p, (mem_zipIdx' hmem).2 ▸ getElem_mem _, hrecord⟩
      · rintro ⟨p, hp, hrecord⟩
        obtain ⟨i, hi, rfl⟩ := getElem_of_mem hp
        exact ⟨((cliRetain ++ policyRetain)[i], i),
          mem_zipIdx_iff_getElem?.mpr (getElem?_eq_getElem hi), hrecord⟩
  rw [hmatched]
  simp only [hmatched]
  unfold Store.Needed
  constructor
  · rintro (h | ⟨root, h, hreach, hget⟩)
    · rcases h with ⟨name, head, hname, hreach, hget⟩ | ⟨p, hp, record, hrecord, rfl⟩
      · exact ⟨⟨head, .inl ⟨name, hname⟩, hreach⟩, hget⟩
      · refine ⟨⟨record.opId, .inr ⟨p, hp, record, hrecord, rfl⟩, .refl⟩, ?_⟩
        simp [(Predicate.mem_evaluate_iff.mp hrecord).1]
    · refine ⟨?_, hget⟩
      rcases h with ⟨name, head, hname, hhead, -⟩ | hmatch
      · exact ⟨head, .inl ⟨name, hname⟩, hhead.trans hreach⟩
      · exact ⟨root, .inr hmatch, hreach⟩
  · rintro ⟨⟨root, hroot | hmatch, hreach⟩, hget⟩
    · obtain ⟨name, hname⟩ := hroot
      exact .inl (.inl ⟨name, root, hname, hreach, hget⟩)
    · exact .inr ⟨root, .inr hmatch, hreach, hget⟩

theorem Store.Needed.ancestor {retain : List Predicate} {ancestor : OpId}
    (h : store.Needed retain id) (hreach : store.log.Reach id ancestor) : store.Needed retain ancestor := by
  obtain ⟨root, hroot, hid⟩ := h
  exact ⟨root, hroot, hid.trans hreach⟩

/-- **An operation survives exactly if it is needed.** -/
theorem get_applyGc : (store.applyGc (store.planGc cliRetain policyRetain)).log.get id = some record ↔
      store.log.get id = some record ∧ store.Needed (cliRetain ++ policyRetain) id := by
  show (evictRecords store.log.records _)[id]? = _ ↔ _
  rw [getElem?_evictRecords]
  have hdelete : id ∈ (store.planGc cliRetain policyRetain).toDelete ↔
      store.log.get id ≠ none ∧ id ∉ (store.planGc cliRetain policyRetain).retained := by
    show id ∈ store.log.records.keys.filter (fun id =>
      !(store.planGc cliRetain policyRetain).retained.contains id) ↔ _
    rw [mem_filter, ← mem_toFinset]
    show id ∈ store.log.ids ∧ _ ↔ _
    rw [OpLog.mem_ids, Bool.not_eq_true', ← Bool.not_eq_true]
    rfl
  constructor
  · intro h
    split at h
    · cases h
    · rename_i hkept
      have hget : store.log.get id = some record := h
      refine ⟨hget, ?_⟩
      by_contra hnot
      refine hkept (hdelete.mpr ⟨by simp [hget], fun hmem => hnot (mem_planGc.mp hmem).1⟩)
  · rintro ⟨hget, hneeded⟩
    rw [if_neg]
    · exact hget
    · intro hmem
      exact (hdelete.mp hmem).2 (mem_planGc.mpr ⟨hneeded, by simp [hget]⟩)

theorem acyclic_applyGc (hac : store.log.Acyclic) :
    (store.applyGc (store.planGc cliRetain policyRetain)).log.Acyclic := by
  intro id hcycle
  refine hac id (hcycle.lift (fun a => a) fun a b hedge => ?_)
  obtain ⟨record, hget, hp⟩ := OpLog.edge_iff.mp hedge
  exact OpLog.edge_iff.mpr ⟨record, (get_applyGc.mp hget).1, hp⟩

theorem get_applyGc_of_needed (h : store.Needed (cliRetain ++ policyRetain) id) :
    (store.applyGc (store.planGc cliRetain policyRetain)).log.get id = store.log.get id := by
  cases hget : store.log.get id with
  | some record => exact get_applyGc.mpr ⟨hget, h⟩
  | none =>
    by_contra hne
    obtain ⟨record, hrecord⟩ := Option.ne_none_iff_exists'.mp hne
    rw [(get_applyGc.mp hrecord).1] at hget
    cases hget

end Plan

/-! ## Both passes -/

/-- The environment of a pass over the blobs, with the predicates of the policy file. -/
def FilesEnv.retaining (files : FilesEnv) (policyRetain : List Predicate) : FilesEnv :=
  { files with
    matched := fun store => policyRetain.flatMap fun p =>
      (p.evaluate store.log).map OperationRecord.opId }

section Passes

variable (files : FilesEnv) (policyRetain cliRetain : List Predicate) (grace : Nat)

/-- **Collect operations, then blobs.** -/
def FileStore.gc (s : FileStore) : FileStore :=
  let collected := { s with store := s.store.applyGc (s.store.planGc cliRetain policyRetain) }
  collected.applyBlobGc (collected.planBlobGc (files.retaining policyRetain) grace)

/-- **What the passes were to keep**: every operation that is needed, or an open candidate, and with
each operation the files in force at it. -/
def GcKeeps (s : FileStore) : Prop :=
  ∀ id record, s.store.log.get id = some record →
    s.store.Needed (cliRetain ++ policyRetain) id ∨ s.store.OpenCandidate id →
      (s.gc files policyRetain cliRetain grace).store.log.get id = some record ∧
        ∀ manifest, (s.gc files policyRetain cliRetain grace).store.log.manifestAt id = .set manifest →
          Keeps files manifest s (s.gc files policyRetain cliRetain grace)

variable {files policyRetain cliRetain grace} {s : FileStore}

/-- **The blob pass retains what `plan_gc` does**, with no predicates from the command line. -/
theorem mem_retained_iff : record ∈ s.retained (files.retaining policyRetain) ↔
      s.store.log.get record.opId = some record ∧ record.opId ∈ (s.store.planGc [] policyRetain).retained := by
  unfold FileStore.retained
  rw [mem_planGc, nil_append, mem_flatMap]
  constructor
  · rintro ⟨root, hroot, hwalk⟩
    obtain ⟨hget, hreach⟩ := OpLog.mem_walkBack_iff.mp hwalk
    refine ⟨hget, ⟨root, ?_, hreach⟩, by simp [hget]⟩
    rcases mem_append.mp hroot with hhead | hmatched
    · exact .inl (mem_heads_iff.mp hhead)
    · obtain ⟨p, hp, hid⟩ := mem_flatMap.mp hmatched
      obtain ⟨found, hfound, rfl⟩ := mem_map.mp hid
      exact .inr ⟨p, hp, found, hfound, rfl⟩
  · rintro ⟨hget, ⟨root, hroot, hreach⟩, -⟩
    refine ⟨root, mem_append.mpr ?_, OpLog.mem_walkBack_iff.mpr ⟨hget, hreach⟩⟩
    rcases hroot with hhead | ⟨p, hp, found, hfound, rfl⟩
    · exact .inl (mem_heads_iff.mpr hhead)
    · exact .inr (mem_flatMap.mpr ⟨p, hp, mem_map.mpr ⟨found, hfound, rfl⟩⟩)

theorem checkEntries_retaining (entries : List (String × Entry)) (folded : Std.ExtTreeMap String String) :
    Manifest.checkEntries (files.retaining policyRetain) entries folded =
      Manifest.checkEntries files entries folded := by
  induction entries generalizing folded with
  | nil => rfl
  | cons entry entries ih =>
    unfold Manifest.checkEntries
    simp only [ih]
    rfl

theorem closure_retaining (s : FileStore) (manifest : BlobId) :
    s.closure (files.retaining policyRetain) manifest = s.closure files manifest := by
  have hvalidate : ∀ m : Manifest, m.validate (files.retaining policyRetain) = m.validate files := by
    intro m
    unfold Manifest.validate
    rw [checkEntries_retaining]
  have hbytes : ∀ bytes, Manifest.fromBytes (files.retaining policyRetain) bytes =
      Manifest.fromBytes files bytes := by
    intro bytes
    unfold Manifest.fromBytes
    simp only [hvalidate]
    rfl
  unfold FileStore.closure FileStore.getManifest
  simp only [hbytes]

theorem named_of_needed {id manifest blob : BlobId} (hneeded : s.store.Needed policyRetain id)
    (hmanifest : s.store.log.manifestAt id = .set manifest)
    (hblob : blob ∈ s.closure files manifest) : s.Named (files.retaining policyRetain) blob := by
  obtain ⟨ancestor, record, hreach, hget, hkind⟩ := OpLog.setFiles_of_manifestWithin hmanifest
  obtain rfl := OpLog.get_opId hget
  refine .inl ⟨record, mem_retained_iff.mpr ⟨hget, mem_planGc.mpr ⟨?_, by simp [hget]⟩⟩, ?_⟩
  · exact hneeded.ancestor hreach
  · rw [FileStore.marks, hkind]
    show blob ∈ s.closure (files.retaining policyRetain) manifest
    rw [closure_retaining]
    exact hblob

theorem store_gc : (s.gc files policyRetain cliRetain grace).store =
    s.store.applyGc (s.store.planGc cliRetain policyRetain) := store_sweep

end Passes

/-! ## A candidate that no branch holds -/

/-- A candidate, on no branch. -/
def candidateStore : FileStore where
  store := { Store.empty with
    log := OpLog.ofRecords [⟨"c", .v1, .new (.candidate "f" "s1") [], .importOnly⟩] }
  blobs := ∅
  blobRefs := []

theorem candidateStore_acyclic : candidateStore.store.log.Acyclic :=
  OpLog.acyclic_ofRecords (by decide) (by decide)

end LexLang
