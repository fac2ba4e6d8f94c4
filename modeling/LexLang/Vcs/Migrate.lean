/-
# LexLang.Vcs.Migrate — moving the op log to another canonical form

A migration (`lex-vcs/src/migrate.rs`) reads every record, renames the operations parents first
under the new encoder, writes the new records and deletes the old ones. This is the plan.
-/
import LexLang.Graph.Queue
import LexLang.Vcs.CrashSafety

namespace LexLang.Vcs

open LexLang.Graph
open List Option

/-! ## The plan -/

/-- One operation's way into the new format. -/
structure MigrationStep where
  oldOpId : OpId
  newOpId : OpId
  newRecord : OperationRecord
  deriving DecidableEq

/-- The steps of a migration, parents first. -/
structure MigrationPlan where
  target : OperationFormat
  steps : List MigrationStep
  deriving DecidableEq

/-- Every operation keeps its id. -/
def MigrationPlan.isNoOp (plan : MigrationPlan) : Bool :=
  plan.steps.all fun step => step.oldOpId == step.newOpId

/-- The records by id, the last of an id. -/
def byId (records : List OperationRecord) : Std.ExtTreeMap OpId OperationRecord :=
  records.foldl (fun map record => map.insert record.opId record) ∅

/-- The parents of a record of the map. -/
def parentsIn (map : Std.ExtTreeMap OpId OperationRecord) (id : OpId) : List OpId :=
  match map[id]? with
  | some record => record.op.parents
  | none => []

/-- **Parents before children**; `none` when some operation never becomes ready. -/
def topologicalSort (map : Std.ExtTreeMap OpId OperationRecord) : Option (List OpId) :=
  let out := queueOrder map.keys (parentsIn map)
  if out.length = map.keys.length then some out else none

/-- The new id of a parent; a parent the log does not hold keeps its id. -/
def remap (mapping : Std.ExtTreeMap OpId OpId) (parent : OpId) : OpId :=
  (mapping[parent]?).getD parent

section Plan

variable (encode : Operation → OpId) (target : OperationFormat)

/-- The step of one record, its parents renamed. -/
def migrationStep (mapping : Std.ExtTreeMap OpId OpId) (oldId : OpId) (record : OperationRecord) :
    MigrationStep :=
  let newOp : Operation := { record.op with parents := record.op.parents.map (remap mapping) }
  { oldOpId := oldId
    newOpId := encode newOp
    newRecord :=
      { opId := encode newOp, formatVersion := target, op := newOp, produces := record.produces } }

/-- The steps of the ids listed, and the mapping they grow. -/
def planSteps (map : Std.ExtTreeMap OpId OperationRecord) :
    Std.ExtTreeMap OpId OpId → List OpId → Option (List MigrationStep)
  | _, [] => some []
  | mapping, id :: ids =>
    match map[id]? with
    | none => none
    | some record =>
      let step := migrationStep encode target mapping id record
      (planSteps map (mapping.insert id step.newOpId) ids).map (step :: ·)

/-- **Plan a migration**; `none` is an error. `encode` hashes the new canonical form. -/
def planMigration (disk : Disk) (dir : OpsDir) : Option MigrationPlan :=
  match dir.listAll disk with
  | none => none
  | some all =>
    match topologicalSort (byId all) with
    | none => none
    | some topo =>
      (planSteps encode target (byId all) ∅ topo).map fun steps => { target, steps }

end Plan

/-- **Apply a plan**: write the new records, then delete the old ones that are not new ones too. -/
def applyMigration (dir : OpsDir) (plan : MigrationPlan) : OpsDir :=
  if plan.isNoOp then dir
  else
    let newIds := plan.steps.map MigrationStep.newOpId
    let written := plan.steps.foldl (fun dir step => dir.put step.newRecord) dir
    plan.steps.foldl
      (fun dir step =>
        if step.oldOpId ≠ step.newOpId ∧ step.oldOpId ∉ newIds then dir.delete step.oldOpId else dir)
      written

/-! ## What a plan renames -/

section Renaming

variable (encode : Operation → OpId) (target : OperationFormat)

/-- The operation with its parents renamed. -/
def Operation.rename (newOf : OpId → OpId) (op : Operation) : Operation :=
  { op with parents := op.parents.map newOf }

/-- The step that renames a record. -/
def renamingStep (newOf : OpId → OpId) (record : OperationRecord) : MigrationStep where
  oldOpId := record.opId
  newOpId := encode (record.op.rename newOf)
  newRecord :=
    { opId := encode (record.op.rename newOf), formatVersion := target
      op := record.op.rename newOf, produces := record.produces }

variable {encode target} {all : List OperationRecord}

variable {record : OperationRecord}

theorem getElem?_byId (hnd : (all.map OperationRecord.opId).Nodup) {id : OpId} :
    (byId all)[id]? = some record ↔ record ∈ all ∧ record.opId = id := by
  have hfold : ∀ (records : List OperationRecord) (map : Std.ExtTreeMap OpId OperationRecord),
      (records.map OperationRecord.opId).Nodup →
      ((records.foldl (fun map record => map.insert record.opId record) map)[id]? = some record ↔
        (record ∈ records ∧ record.opId = id) ∨
          (id ∉ records.map OperationRecord.opId ∧ map[id]? = some record)) := by
    intro records
    induction records with
    | nil => simp
    | cons first records ih =>
      intro map hnd
      rw [map_cons, nodup_cons] at hnd
      rw [foldl_cons, ih _ hnd.2, OpsDir.getElem?_insert_eq]
      by_cases hfirst : first.opId = id
      · subst hfirst
        simp only [if_true, map_cons, mem_cons, true_or, not_true_eq_false, false_and,
          or_false, some.injEq]
        constructor
        · rintro (⟨hmem, hid⟩ | ⟨_, rfl⟩)
          · exact ⟨.inr hmem, hid⟩
          · exact ⟨.inl rfl, rfl⟩
        · rintro ⟨rfl | hmem, hid⟩
          · exact .inr ⟨hnd.1, rfl⟩
          · exact .inl ⟨hmem, hid⟩
      · simp only [if_neg hfirst, map_cons, mem_cons, not_or]
        constructor
        · rintro (⟨hmem, hid⟩ | ⟨hno, hmap⟩)
          · exact .inl ⟨.inr hmem, hid⟩
          · exact .inr ⟨⟨Ne.symm hfirst, hno⟩, hmap⟩
        · rintro (⟨rfl | hmem, hid⟩ | ⟨⟨_, hno⟩, hmap⟩)
          · exact absurd hid hfirst
          · exact .inl ⟨hmem, hid⟩
          · exact .inr ⟨hno, hmap⟩
  unfold byId
  rw [hfold all ∅ hnd]
  simp

theorem mem_keys_byId (hnd : (all.map OperationRecord.opId).Nodup) {id : OpId} :
    id ∈ (byId all).keys ↔ id ∈ all.map OperationRecord.opId := by
  rw [OpsDir.mem_keys_iff, List.mem_map]
  exact exists_congr fun record => getElem?_byId hnd

/-- **A list of records that can be renamed one after another**: each once, each after its parents,
each with a parent once. -/
structure Renamable (all records : List OperationRecord) : Prop where
  perm : records.Perm all
  first : ∀ before record after, records = before ++ record :: after →
    ∀ p ∈ record.op.parents, p ∈ all.map OperationRecord.opId →
      p ∈ before.map OperationRecord.opId
  single : ∀ record ∈ records,
    (record.op.parents.filter fun p => decide (p ∈ all.map OperationRecord.opId)).Nodup

/-- **What a plan does**: every record is renamed by one and the same function, which leaves alone
what the log does not hold. -/
structure Renames (encode : Operation → OpId) (target : OperationFormat)
    (all records : List OperationRecord) (newOf : OpId → OpId) (steps : List MigrationStep) :
    Prop where
  steps_eq : steps = records.map (renamingStep encode target newOf)
  new : ∀ record ∈ records, newOf record.opId = encode (record.op.rename newOf)
  absent : ∀ id, id ∉ all.map OperationRecord.opId → newOf id = id

theorem planSteps_spec (encode : Operation → OpId) (target : OperationFormat)
    (hnd : (all.map OperationRecord.opId).Nodup) {records : List OperationRecord}
    (hall : Renamable all records) : ∀ (rest before : List OperationRecord)
    (mapping : Std.ExtTreeMap OpId OpId), records = before ++ rest →
    (∀ id, mapping[id]?.isSome ↔ id ∈ before.map OperationRecord.opId) →
    ∃ newOf steps,
      planSteps encode target (byId all) mapping (rest.map OperationRecord.opId) = some steps ∧
        steps = rest.map (renamingStep encode target newOf) ∧
        (∀ record ∈ rest, newOf record.opId = encode (record.op.rename newOf)) ∧
        (∀ id new, mapping[id]? = some new → newOf id = new) ∧
        ∀ id, id ∉ records.map OperationRecord.opId → newOf id = id
  | [], before, mapping, hrecords, hmapping =>
    ⟨remap mapping, [], rfl, rfl, by simp, fun id new h => by simp [remap, h], fun id hid => by
      have hnone : mapping[id]? = none := by
        rw [← not_isSome_iff_eq_none, hmapping]
        rwa [hrecords, append_nil] at hid
      simp [remap, hnone]⟩
  | record :: rest, before, mapping, hrecords, hmapping => by
    have hmem : record ∈ all := hall.perm.mem_iff.mp (by simp [hrecords])
    have hget : (byId all)[record.opId]? = some record := (getElem?_byId hnd).mpr ⟨hmem, rfl⟩
    have hrecords' : records = (before ++ [record]) ++ rest := by rw [hrecords]; simp
    have hndr : (records.map OperationRecord.opId).Nodup := (hall.perm.map _).nodup_iff.mpr hnd
    let new := (migrationStep encode target mapping record.opId record).newOpId
    obtain ⟨newOf, steps, hsteps, hrest, hnew, hold, habsent⟩ :=
      planSteps_spec encode target hnd hall rest (before ++ [record]) (mapping.insert record.opId new) hrecords'
        fun id => by
          rw [OpsDir.getElem?_insert_eq, map_append, mem_append, ← hmapping]
          by_cases hid : record.opId = id
          · simp [hid]
          · simp [hid, Ne.symm hid]
    have hnotBefore : record.opId ∉ before.map OperationRecord.opId := by
      rw [hrecords, map_append, map_cons] at hndr
      exact fun h => (nodup_append'.mp hndr).2.2 h mem_cons_self
    have hkeep : ∀ id new', mapping[id]? = some new' → newOf id = new' := by
      intro id new' h
      refine hold id new' ?_
      rw [OpsDir.getElem?_insert_eq, if_neg]
      · exact h
      · rintro rfl
        exact hnotBefore ((hmapping _).mp (by simp [h]))
    -- the parents are renamed as they will be in the end
    have hparents : record.op.parents.map (remap mapping) = record.op.parents.map newOf := by
      refine map_congr_left fun p hp => ?_
      by_cases hpall : p ∈ all.map OperationRecord.opId
      · have hpb := hall.first before record rest hrecords p hp hpall
        obtain ⟨new', hnew'⟩ := isSome_iff_exists.mp ((hmapping p).mpr hpb)
        rw [hkeep p new' hnew']
        simp [remap, hnew']
      · have hpr : p ∉ records.map OperationRecord.opId :=
          fun h => hpall ((hall.perm.map _).mem_iff.mp h)
        have hnone : mapping[p]? = none := by
          rw [← not_isSome_iff_eq_none, hmapping]
          intro h
          exact hpr (by rw [hrecords, map_append]; exact mem_append_left _ h)
        rw [habsent p hpr]
        simp [remap, hnone]
    have hstep : migrationStep encode target mapping record.opId record =
        renamingStep encode target newOf record := by
      unfold migrationStep renamingStep Operation.rename
      simp only [hparents]
    refine ⟨newOf, renamingStep encode target newOf record :: steps, ?_, ?_, ?_, hkeep, habsent⟩
    · rw [map_cons, planSteps]
      simp only [hget]
      rw [← hstep]
      have hsteps' : planSteps encode target (byId all)
          (mapping.insert record.opId
            (migrationStep encode target mapping record.opId record).newOpId)
          (rest.map OperationRecord.opId) = some steps := hsteps
      rw [hsteps']
      rfl
    · rw [hrest]
      rfl
    · intro r hr
      rcases mem_cons.mp hr with rfl | hr
      · have hnewOf : newOf r.opId = new := hold r.opId new (by
          rw [OpsDir.getElem?_insert_eq, if_pos rfl])
        rw [hnewOf]
        show (migrationStep encode target mapping r.opId r).newOpId = _
        rw [hstep]
        rfl
      · exact hnew r hr

/-! ### A plan succeeds where the records can be renamed one after another -/

theorem exists_records : ∀ (topo : List OpId),
    (∀ id ∈ topo, id ∈ all.map OperationRecord.opId) →
    ∃ records : List OperationRecord,
      records.map OperationRecord.opId = topo ∧ ∀ record ∈ records, record ∈ all
  | [], _ => ⟨[], rfl, by simp⟩
  | id :: topo, hids => by
    obtain ⟨records, hmap, hmem⟩ :=
      exists_records topo fun id h => hids id (mem_cons_of_mem _ h)
    obtain ⟨record, hrecord, rfl⟩ := List.mem_map.mp (hids id mem_cons_self)
    refine ⟨record :: records, by rw [map_cons, hmap], fun r hr => ?_⟩
    rcases mem_cons.mp hr with rfl | hr
    · exact hrecord
    · exact hmem r hr

section

variable (hnd : (all.map OperationRecord.opId).Nodup)
include hnd

theorem parentsIn_byId (hmem : record ∈ all) : parentsIn (byId all) record.opId = record.op.parents := by
  unfold parentsIn
  rw [(getElem?_byId hnd).mpr ⟨hmem, rfl⟩]

theorem presentParents_byId (hmem : record ∈ all) : presentParents (byId all).keys (parentsIn (byId all)) record.opId =
      record.op.parents.filter fun p => decide (p ∈ all.map OperationRecord.opId) := by
  unfold presentParents
  rw [parentsIn_byId hnd hmem]
  exact filter_congr fun p _ => decide_eq_decide.mpr (mem_keys_byId hnd)

theorem eq_of_opId_eq {record' : OperationRecord}
    (hmem : record ∈ all) (hmem' : record' ∈ all) (h : record.opId = record'.opId) :
    record = record' := inj_on_of_nodup_map hnd hmem hmem' h

/-- **What the topological sort returns.** -/
theorem topologicalSort_spec {topo : List OpId}
    (h : topologicalSort (byId all) = some topo) :
    ∃ records, Renamable all records ∧ topo = records.map OperationRecord.opId := by
  obtain ⟨hnodup, hkeys, hbefore, hsingle⟩ :=
    queueOrder_sound (parentsIn (byId all)) (Std.ExtTreeMap.nodup_keys (t := byId all))
  unfold topologicalSort at h
  simp only at h
  split at h
  case isFalse => cases h
  rename_i hlen
  obtain rfl := some.inj h
  have hperm : (queueOrder (byId all).keys (parentsIn (byId all))).Perm (byId all).keys :=
    (subperm_of_subset hnodup hkeys).perm_of_length_le (by omega)
  obtain ⟨records, hmap, hmem⟩ := exists_records
    (queueOrder (byId all).keys (parentsIn (byId all)))
    fun id hid => (mem_keys_byId hnd).mp (hkeys id hid)
  have hndr : (records.map OperationRecord.opId).Nodup := by rw [hmap]; exact hnodup
  refine ⟨records, ⟨?_, ?_, ?_⟩, hmap.symm⟩
  · refine (perm_ext_iff_of_nodup (List.Nodup.of_map _ hndr) (List.Nodup.of_map _ hnd)).mpr
      fun record => ⟨hmem record, fun hrecord => ?_⟩
    have hid : record.opId ∈ records.map OperationRecord.opId := by
      rw [hmap]
      exact hperm.mem_iff.mpr ((mem_keys_byId hnd).mpr (List.mem_map_of_mem hrecord))
    obtain ⟨record', hrecord', heq⟩ := List.mem_map.mp hid
    rwa [← eq_of_opId_eq hnd (hmem record' hrecord') hrecord heq]
  · intro before record after heq p hp hpall
    refine hbefore (before.map OperationRecord.opId) record.opId (after.map OperationRecord.opId)
      (by rw [← hmap, heq, map_append, map_cons]) p ?_
    rw [presentParents_byId hnd (hmem record (by simp [heq])), mem_filter]
    exact ⟨hp, decide_eq_true hpall⟩
  · intro record hrecord
    rw [← presentParents_byId hnd (hmem record hrecord)]
    refine hsingle record.opId ?_
    rw [← hmap]
    exact List.mem_map_of_mem hrecord

/-- **The topological sort succeeds** where the records are ranked and list each parent once. -/
theorem topologicalSort_complete (rank : OpId → ℕ)
    (hrank : ∀ record ∈ all, ∀ p ∈ record.op.parents, p ∈ all.map OperationRecord.opId → rank p < rank record.opId)
    (hsingle : ∀ record ∈ all, (record.op.parents.filter fun p => decide (p ∈ all.map OperationRecord.opId)).Nodup) :
    ∃ topo, topologicalSort (byId all) = some topo := by
  have hperm : (queueOrder (byId all).keys (parentsIn (byId all))).Perm (byId all).keys := by
    have hrecordOf : ∀ id ∈ (byId all).keys, ∃ record ∈ all, record.opId = id := fun id hid =>
      List.mem_map.mp ((mem_keys_byId hnd).mp hid)
    refine queueOrder_complete Std.ExtTreeMap.nodup_keys rank (fun id hid p hp => ?_)
      fun id hid => ?_
    · obtain ⟨record, hrecord, rfl⟩ := hrecordOf id hid
      rw [presentParents_byId hnd hrecord, mem_filter, decide_eq_true_iff] at hp
      exact hrank record hrecord p hp.1 hp.2
    · obtain ⟨record, hrecord, rfl⟩ := hrecordOf id hid
      rw [presentParents_byId hnd hrecord]
      exact hsingle record hrecord
  unfold topologicalSort
  rw [if_pos hperm.length_eq]
  exact ⟨_, rfl⟩

end

variable {disk : Disk} {dir : OpsDir} {plan : MigrationPlan}

/-- **What a successful plan does.** -/
theorem planMigration_spec (hlist : dir.listAll disk = some all) (hnd : (all.map OperationRecord.opId).Nodup)
    (hplan : planMigration encode target disk dir = some plan) :
    ∃ records newOf, Renamable all records ∧ Renames encode target all records newOf plan.steps := by
  unfold planMigration at hplan
  simp only [hlist] at hplan
  cases htopo : topologicalSort (byId all) with
  | none => simp [htopo] at hplan
  | some topo =>
    simp only [htopo] at hplan
    obtain ⟨records, hren, rfl⟩ := topologicalSort_spec hnd htopo
    obtain ⟨newOf, steps, hsteps, heq, hnew, _, habsent⟩ :=
      planSteps_spec encode target hnd hren records [] ∅ rfl (by simp)
    rw [hsteps, map_some, some.injEq] at hplan
    subst hplan
    refine ⟨records, newOf, hren, heq, hnew, fun id hid => habsent id fun h => hid ?_⟩
    exact (hren.perm.map _).mem_iff.mp h

/-- **A plan is found** where the records are ranked and list each parent once. -/
theorem planMigration_complete (hlist : dir.listAll disk = some all)
    (hnd : (all.map OperationRecord.opId).Nodup) (rank : OpId → ℕ)
    (hrank : ∀ record ∈ all, ∀ p ∈ record.op.parents, p ∈ all.map OperationRecord.opId → rank p < rank record.opId)
    (hsingle : ∀ record ∈ all, (record.op.parents.filter fun p => decide (p ∈ all.map OperationRecord.opId)).Nodup) :
    ∃ plan, planMigration encode target disk dir = some plan := by
  obtain ⟨topo, htopo⟩ := topologicalSort_complete hnd rank hrank hsingle
  obtain ⟨records, hren, rfl⟩ := topologicalSort_spec hnd htopo
  obtain ⟨_, steps, hsteps, _⟩ :=
    planSteps_spec encode target hnd hren records [] ∅ rfl (by simp)
  refine ⟨{ target, steps }, ?_⟩
  unfold planMigration
  simp only [hlist, htopo, hsteps, map_some]

/-- The place of an id in the order of renaming. -/
def rankIn (records : List OperationRecord) (id : OpId) : ℕ :=
  (records.map OperationRecord.opId).idxOf id

theorem Renamable.rank_lt {records : List OperationRecord} (h : Renamable all records)
    (hnd : (all.map OperationRecord.opId).Nodup) (hmem : record ∈ records)
    {p : OpId} (hp : p ∈ record.op.parents) (hpall : p ∈ all.map OperationRecord.opId) :
    rankIn records p < rankIn records record.opId := by
  obtain ⟨before, after, rfl⟩ := append_of_mem hmem
  have hndr : ((before ++ record :: after).map OperationRecord.opId).Nodup :=
    (h.perm.map _).nodup_iff.mpr hnd
  have hpb := h.first before record after rfl p hp hpall
  have hno : record.opId ∉ before.map OperationRecord.opId := by
    rw [map_append, map_cons] at hndr
    exact fun hin => (nodup_append'.mp hndr).2.2 hin mem_cons_self
  unfold rankIn
  rw [map_append, idxOf_append_of_mem hpb, idxOf_append_of_notMem hno]
  have := idxOf_lt_length_iff.mpr hpb
  omega

/-- **A log in the encoder's own form is settled**: its plan renames nothing. -/
theorem isNoOp_of_encoded (hlist : dir.listAll disk = some all) (hnd : (all.map OperationRecord.opId).Nodup)
    (hencoded : ∀ record ∈ all, record.opId = encode record.op)
    (hplan : planMigration encode target disk dir = some plan) : plan.isNoOp = true := by
  obtain ⟨records, newOf, hren, hrenames⟩ := planMigration_spec hlist hnd hplan
  have hsame : ∀ record ∈ records, record.op.rename newOf = record.op →
      encode (record.op.rename newOf) = record.opId := by
    intro record hrecord h
    rw [h, hencoded record (hren.perm.mem_iff.mp hrecord)]
  have hkeep : ∀ n, ∀ record ∈ records, rankIn records record.opId < n →
      record.op.rename newOf = record.op := by
    intro n
    induction n with
    | zero => intro record _ hlt; omega
    | succ n ih =>
      intro record hrecord hlt
      have hid : ∀ p ∈ record.op.parents, newOf p = id p := by
        intro p hp
        by_cases hpall : p ∈ all.map OperationRecord.opId
        · -- a parent the log holds comes earlier, and keeps its id
          have hrank := hren.rank_lt hnd hrecord hp hpall
          obtain ⟨parent, hparent, rfl⟩ :=
            List.mem_map.mp ((hren.perm.map OperationRecord.opId).mem_iff.mpr hpall)
          rw [hrenames.new parent hparent]
          exact hsame parent hparent (ih parent hparent (by omega))
        · exact hrenames.absent p hpall
      have hparents : record.op.parents.map newOf = record.op.parents :=
        (map_congr_left hid).trans (List.map_id _)
      unfold Operation.rename
      rw [hparents]
  refine List.all_eq_true.mpr fun step hstep => ?_
  rw [hrenames.steps_eq] at hstep
  obtain ⟨record, hrecord, rfl⟩ := List.mem_map.mp hstep
  have := hsame record hrecord (hkeep _ record hrecord (Nat.lt_succ_self _))
  exact beq_iff_eq.mpr this.symm

end Renaming

/-! ## The renaming is injective -/

/-- The directory's records name an id: as their own or as a parent's. -/
def OpsDir.Names (dir : OpsDir) (id : OpId) : Prop :=
  ∃ held record, dir.Holds held record ∧ (id = record.opId ∨ id ∈ record.op.parents)

/-- Different operations, as far as ids tell them apart, have different ids. -/
def InjectiveEncoder (encode : Operation → OpId) : Prop :=
  ∀ op op' : Operation, encode op = encode op' →
    op.kind = op'.kind ∧ sortedSet op.parents = sortedSet op'.parents ∧ op.intentId = op'.intentId

section Injective

variable {digest : Digest} {encode : Operation → OpId} {target : OperationFormat}
  {all records : List OperationRecord} {newOf : OpId → OpId} {steps : List MigrationStep}

theorem sortedSet_eq_iff {ids ids' : List String} : sortedSet ids = sortedSet ids' ↔ ∀ id, id ∈ ids ↔ id ∈ ids' := by
  constructor
  · intro h id
    rw [← mem_sortedSet, h, mem_sortedSet]
  · intro h
    have hperm : (sortedSet ids).Perm (sortedSet ids') :=
      (perm_ext_iff_of_nodup (sortedSet_nodup ids) (sortedSet_nodup ids')).mpr fun id => by
        rw [mem_sortedSet, mem_sortedSet, h]
    exact hperm.eq_of_pairwise (fun _ _ _ _ hab hba => absurd hba hab.asymm)
      (sortedSet_sorted ids) (sortedSet_sorted ids')

/-- **Renaming keeps operations apart**: a new id stands for one old id. The induction is on how far
down the log the two operations are. -/
theorem Renames.injOn (hren : Renamable all records) (hrenames : Renames encode target all records newOf steps)
    (hnd : (all.map OperationRecord.opId).Nodup) (hinj : InjectiveEncoder encode)
    (haddressed : ∀ record ∈ all, record.opId = record.op.opId digest)
    (hfresh : ∀ record ∈ all, ∀ p ∈ record.op.parents, ∀ op, encode op ≠ p) :
    ∀ record ∈ records, ∀ record' ∈ records, newOf record.opId = newOf record'.opId → record.opId = record'.opId := by
  have hmain : ∀ n, ∀ record ∈ records, ∀ record' ∈ records,
      rankIn records record.opId < n → rankIn records record'.opId < n →
      newOf record.opId = newOf record'.opId → record.opId = record'.opId := by
    intro n
    induction n with
    | zero => intro record _ record' _ hlt; omega
    | succ n ih =>
      intro record hrecord record' hrecord' hlt hlt' heq
      rw [hrenames.new record hrecord, hrenames.new record' hrecord'] at heq
      obtain ⟨hkind, hparents, hintent⟩ := hinj _ _ heq
      -- a parent of the one is a parent of the other
      have hsub : ∀ a ∈ records, ∀ b ∈ records, rankIn records a.opId < n + 1 →
          rankIn records b.opId < n + 1 →
          sortedSet (a.op.parents.map newOf) = sortedSet (b.op.parents.map newOf) →
          ∀ p ∈ a.op.parents, p ∈ b.op.parents := by
        intro a ha b hb hla hlb hset p hp
        have hmem : newOf p ∈ b.op.parents.map newOf :=
          (sortedSet_eq_iff.mp hset _).mp (List.mem_map_of_mem hp)
        obtain ⟨q, hq, hqp⟩ := List.mem_map.mp hmem
        have hpresent : ∀ c ∈ records, ∀ x ∈ c.op.parents, x ∈ all.map OperationRecord.opId →
            ∃ r ∈ records, r.opId = x := fun c hc x _ hx =>
          List.mem_map.mp ((hren.perm.map OperationRecord.opId).mem_iff.mpr hx)
        by_cases hpall : p ∈ all.map OperationRecord.opId
        · obtain ⟨r, hr, rfl⟩ := hpresent a ha p hp hpall
          have hrank := hren.rank_lt hnd ha hp hpall
          by_cases hqall : q ∈ all.map OperationRecord.opId
          · obtain ⟨s, hs, rfl⟩ := hpresent b hb q hq hqall
            have hrank' := hren.rank_lt hnd hb hq hqall
            rw [ih r hr s hs (by omega) (by omega) hqp.symm]
            exact hq
          · rw [hrenames.absent q hqall, hrenames.new r hr] at hqp
            exact absurd hqp.symm (hfresh b (hren.perm.mem_iff.mp hb) q hq _)
        · rw [hrenames.absent p hpall] at hqp
          by_cases hqall : q ∈ all.map OperationRecord.opId
          · obtain ⟨s, hs, rfl⟩ := hpresent b hb q hq hqall
            rw [hrenames.new s hs] at hqp
            exact absurd hqp (hfresh a (hren.perm.mem_iff.mp ha) p hp _)
          · rw [hrenames.absent q hqall] at hqp
            exact hqp ▸ hq
      rw [haddressed record (hren.perm.mem_iff.mp hrecord),
        haddressed record' (hren.perm.mem_iff.mp hrecord'), opId_eq_iff]
      refine ⟨hkind, sortedSet_eq_iff.mpr fun p => ⟨?_, ?_⟩, hintent⟩
      · exact hsub record hrecord record' hrecord' hlt hlt' hparents p
      · exact hsub record' hrecord' record hrecord hlt' hlt hparents.symm p
  intro record hrecord record' hrecord'
  exact hmain (max (rankIn records record.opId) (rankIn records record'.opId) + 1) record hrecord
    record' hrecord' (by omega) (by omega)

end Injective

end LexLang.Vcs
