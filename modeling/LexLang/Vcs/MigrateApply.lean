/-
# LexLang.Vcs.MigrateApply — what a migration leaves of the old log

Applying a plan writes its new records and deletes the old ids. `delete` removes loose files only, so
what a pack holds stays: `migrated_iff` says that a migration replaces the log exactly when no record
is packed.
-/
import LexLang.Vcs.Migrate

namespace LexLang.Vcs

open LexLang.Graph
open List
open Function

/-! ## What applying a plan leaves in the directory -/

section Applying

/-- A put adds its record unless a loose file has its id. -/
theorem OpsDir.put_files (dir : OpsDir) (record : OperationRecord) :
    (dir.put record).packs = dir.packs ∧ (dir.put record).indices = dir.indices ∧ (dir.put record).loose =
        if dir.loose[record.opId]?.isSome then dir.loose else dir.loose.insert record.opId record := by
  unfold OpsDir.put OpsDir.putSteps
  split
  · exact ⟨rfl, rfl, rfl⟩
  · simp [OpsDir.applyAll, OpsDir.apply]

/-- **The first phase**: the new records are written beside what is there. -/
theorem foldl_put : ∀ (steps : List MigrationStep) (dir : OpsDir),
    (steps.map fun step => step.newRecord.opId).Nodup →
    (∀ step ∈ steps, dir.loose[step.newRecord.opId]? = none) →
    (steps.foldl (fun dir step => dir.put step.newRecord) dir).packs = dir.packs ∧
      (steps.foldl (fun dir step => dir.put step.newRecord) dir).indices = dir.indices ∧
      ∀ (id : OpId) (record : OperationRecord),
        (steps.foldl (fun dir step => dir.put step.newRecord) dir).loose[id]? = some record ↔
          dir.loose[id]? = some record ∨
            ∃ step ∈ steps, step.newRecord = record ∧ record.opId = id
  | [], _, _, _ => ⟨rfl, rfl, by simp⟩
  | step :: steps, dir, hnd, hnew => by
    rw [map_cons, nodup_cons] at hnd
    obtain ⟨hpacks, hindices, hloose⟩ := dir.put_files step.newRecord
    rw [hnew step mem_cons_self] at hloose
    have hother : ∀ step' ∈ steps, step.newRecord.opId ≠ step'.newRecord.opId :=
      fun step' hstep' heq => hnd.1 (heq ▸ mem_map_of_mem hstep')
    obtain ⟨hpacks', hindices', hloose'⟩ := foldl_put steps (dir.put step.newRecord) hnd.2
      fun step' hstep' => by
        rw [hloose, if_neg (by simp), OpsDir.getElem?_insert_eq, if_neg (hother step' hstep')]
        exact hnew step' (mem_cons_of_mem _ hstep')
    refine ⟨hpacks'.trans hpacks, hindices'.trans hindices, fun id record => ?_⟩
    rw [foldl_cons, hloose', hloose, if_neg (by simp), OpsDir.getElem?_insert_eq]
    have hsplit : (∃ step' ∈ step :: steps, step'.newRecord = record ∧ record.opId = id) ↔
        (step.newRecord = record ∧ record.opId = id) ∨
          ∃ step' ∈ steps, step'.newRecord = record ∧ record.opId = id := by simp
    rw [hsplit, ← or_assoc]
    refine or_congr_left ?_
    by_cases hid : step.newRecord.opId = id
    · have hnone : dir.loose[id]? = none := hid ▸ hnew step mem_cons_self
      rw [if_pos hid, hnone, Option.some.injEq]
      constructor
      · rintro rfl
        exact .inr ⟨rfl, hid⟩
      · rintro (h | ⟨h, _⟩)
        · cases h
        · exact h
    · rw [if_neg hid]
      refine (or_iff_left ?_).symm
      rintro ⟨rfl, h⟩
      exact hid h

/-- **The second phase**: loose files go, where `gone` says so. -/
theorem foldl_delete (gone : MigrationStep → Prop) [DecidablePred gone] :
    ∀ (steps : List MigrationStep) (dir : OpsDir),
    (steps.foldl (fun dir step => if gone step then dir.delete step.oldOpId else dir) dir).packs =
        dir.packs ∧
      (steps.foldl (fun dir step => if gone step then dir.delete step.oldOpId else dir)
        dir).indices = dir.indices ∧
      ∀ (id : OpId) (record : OperationRecord),
        (steps.foldl (fun dir step => if gone step then dir.delete step.oldOpId else dir)
          dir).loose[id]? = some record ↔
          dir.loose[id]? = some record ∧ ∀ step ∈ steps, gone step → step.oldOpId ≠ id
  | [], _ => ⟨rfl, rfl, by simp⟩
  | step :: steps, dir => by
    obtain ⟨hpacks, hindices, hloose⟩ := foldl_delete gone steps
      (if gone step then dir.delete step.oldOpId else dir)
    rw [foldl_cons, hpacks, hindices]
    by_cases hgone : gone step
    · simp only [if_pos hgone] at hloose ⊢
      refine ⟨rfl, rfl, fun id record => ?_⟩
      rw [hloose]
      show (dir.loose.erase step.oldOpId)[id]? = some record ∧ _ ↔ _
      rw [OpsDir.getElem?_erase_eq, forall_mem_cons]
      by_cases hid : step.oldOpId = id
      · simp [hid, hgone]
      · simp [hid, hgone]
    · simp only [if_neg hgone] at hloose ⊢
      refine ⟨trivial, trivial, fun id record => ?_⟩
      rw [hloose, forall_mem_cons]
      simp [hgone]

/-- **A plan applied**: with new ids that are no old ones, the loose files are the new records and
whatever the plan does not name; the packs are as they were. -/
theorem applyMigration_files {dir : OpsDir} {plan : MigrationPlan}
    (hids : ∀ step ∈ plan.steps, step.newRecord.opId = step.newOpId)
    (hnd : (plan.steps.map MigrationStep.newOpId).Nodup)
    (hfresh : ∀ step ∈ plan.steps, ∀ step' ∈ plan.steps, step.oldOpId ≠ step'.newOpId)
    (hnew : ∀ step ∈ plan.steps, dir.loose[step.newOpId]? = none) : (applyMigration dir plan).packs = dir.packs ∧
      (applyMigration dir plan).indices = dir.indices ∧ ∀ (id : OpId) (record : OperationRecord),
        (applyMigration dir plan).loose[id]? = some record ↔
          (dir.loose[id]? = some record ∧ ∀ step ∈ plan.steps, step.oldOpId ≠ id) ∨
            ∃ step ∈ plan.steps, step.newRecord = record ∧ record.opId = id := by
  have hmap : (plan.steps.map fun step => step.newRecord.opId) =
      plan.steps.map MigrationStep.newOpId := map_congr_left hids
  obtain ⟨hpacks, hindices, hloose⟩ := foldl_put plan.steps dir (hmap ▸ hnd)
    fun step hstep => by rw [hids step hstep]; exact hnew step hstep
  obtain ⟨hpacks', hindices', hloose'⟩ := foldl_delete
    (fun step => step.oldOpId ≠ step.newOpId ∧ step.oldOpId ∉ plan.steps.map MigrationStep.newOpId)
    plan.steps (plan.steps.foldl (fun dir step => dir.put step.newRecord) dir)
  have hgone : ∀ step ∈ plan.steps, step.oldOpId ≠ step.newOpId ∧
      step.oldOpId ∉ plan.steps.map MigrationStep.newOpId := by
    refine fun step hstep => ⟨hfresh step hstep step hstep, fun h => ?_⟩
    obtain ⟨step', hstep', heq⟩ := mem_map.mp h
    exact hfresh step hstep step' hstep' heq.symm
  unfold applyMigration
  split
  · -- a plan that changes nothing has no steps
    rename_i hno
    have hnil : plan.steps = [] := by
      refine eq_nil_iff_forall_not_mem.mpr fun step hstep => ?_
      have := all_eq_true.mp hno step hstep
      exact (hgone step hstep).1 (by simpa using this)
    simp [hnil]
  · refine ⟨hpacks'.trans hpacks, hindices'.trans hindices, fun id record => ?_⟩
    rw [hloose', hloose, or_and_right]
    refine or_congr (and_congr_right fun _ => ?_) (and_iff_left_of_imp ?_)
    · exact forall₂_congr fun step hstep => ⟨fun h => h (hgone step hstep), fun h _ => h⟩
    · rintro ⟨step, hstep, rfl, rfl⟩ step' hstep' _
      rw [hids step hstep]
      exact hfresh step' hstep' step hstep

end Applying

/-! ## Migrating the log -/

section Migrate

variable (digest : Digest) (disk : Disk) (encode : Operation → OpId) (target : OperationFormat)

/-- What a parent is in the new format: the new id of the operation it names, or itself when the log
does not hold it. -/
def RenamedParent (dir : OpsDir) (plan : MigrationPlan) (p p' : OpId) : Prop :=
  (∃ step ∈ plan.steps, step.oldOpId = p ∧ step.newOpId = p') ∨
    (dir.get disk p = some none ∧ p' = p)

/-- **The log is replaced**: what was `dir` before the plan was applied is `dir'` after it. -/
structure Migrated (dir dir' : OpsDir) (plan : MigrationPlan) : Prop where
  /-- `listAll` is exactly the plan's new records. -/
  listed : ∃ out, dir'.listAll disk = some out ∧
    out.Perm (plan.steps.map MigrationStep.newRecord)
  /-- No id that changed is readable. -/
  gone : ∀ step ∈ plan.steps, step.oldOpId ≠ step.newOpId →
    dir'.get disk step.oldOpId = some none ∧
      ∀ out, dir'.listAll disk = some out → step.oldOpId ∉ out.map OperationRecord.opId
  /-- Every record is read back under its new id, its parents renamed. -/
  renamed : ∀ id record, dir.get disk id = some (some record) →
    ∃ step ∈ plan.steps, step.oldOpId = id ∧
      dir'.get disk step.newOpId = some (some step.newRecord) ∧
      step.newRecord.op.kind = record.op.kind ∧ step.newRecord.op.intentId = record.op.intentId ∧
      Forall₂ (RenamedParent disk dir plan) record.op.parents step.newRecord.op.parents
  /-- Planning again changes nothing. -/
  settled : ∃ plan', planMigration encode target disk dir' = some plan' ∧ plan'.isNoOp = true

/-- A put brings an operation under its own id. -/
def OpsDir.Action.Addressed : OpsDir.Action → Prop
  | .put record _ => record.opId = record.op.opId digest
  | .repack _ _ | .evict _ _ => True

/-- What a log built by whole calls keeps: its files belong together, and every record is held under
its operation's id. -/
structure Addressed (dir : OpsDir) : Prop where
  whole : OpsDir.Whole digest disk dir
  addressed : ∀ id record, dir.Holds id record → record.opId = record.op.opId digest

variable {digest disk encode target} {dir : OpsDir} {all : List OperationRecord}
  {plan : MigrationPlan}

theorem addressed_empty : Addressed digest disk OpsDir.empty := by
  refine ⟨OpsDir.sound_empty.whole, ?_⟩
  rintro id record ⟨_, h | ⟨_, ⟨_, h⟩, _⟩⟩ <;> simp [OpsDir.empty] at h

theorem Addressed.perform (h : Addressed digest disk dir) {action : OpsDir.Action}
    (hcut : action.cut = none) (haction : action.Addressed digest) :
    Addressed digest disk (dir.perform digest disk action) := by
  cases action with
  | put record cut =>
    obtain ⟨hwhole, hnew⟩ := OpsDir.put_spec h.whole record cut
    refine ⟨hwhole, fun id r hr => ?_⟩
    rcases hnew id r hr with hold | ⟨_, rfl⟩
    · exact h.addressed id r hold
    · exact haction
  | repack threshold cut =>
    have hmaint : (OpsDir.Action.repack threshold cut).isMaintenance := trivial
    have hkeeps := OpsDir.keeps_perform h.whole hmaint trivial
    exact ⟨hkeeps.whole, fun id r hr => h.addressed id r (hkeeps.noNew id r hr)⟩
  | evict victims cut =>
    obtain rfl : cut = none := hcut
    have hmaint : (OpsDir.Action.evict victims none).isMaintenance := trivial
    have hkeeps := OpsDir.keeps_perform h.whole hmaint trivial
    exact ⟨hkeeps.whole, fun id r hr => h.addressed id r (hkeeps.noNew id r hr)⟩

theorem Addressed.run : ∀ (actions : List OpsDir.Action) {dir : OpsDir},
    Addressed digest disk dir → (∀ action ∈ actions, action.cut = none) →
    (∀ action ∈ actions, action.Addressed digest) →
    Addressed digest disk (dir.run digest disk actions)
  | [], _, h, _, _ => h
  | action :: actions, _, h, hcut, haddr =>
    Addressed.run actions
      (h.perform (hcut action mem_cons_self) (haddr action mem_cons_self))
      (fun a ha => hcut a (mem_cons_of_mem _ ha))
      fun a ha => haddr a (mem_cons_of_mem _ ha)

/-- **A plan for a log it can be told apart from**: which records it renames, and what its steps are
good for. -/
structure Planned (disk : Disk) (encode : Operation → OpId) (target : OperationFormat)
    (dir : OpsDir) (plan : MigrationPlan) (all records : List OperationRecord)
    (newOf : OpId → OpId) : Prop where
  listed : dir.listAll disk = some all
  held : ∀ record ∈ all, dir.Holds record.opId record
  every : ∀ id record, dir.Holds id record → id ∈ all.map OperationRecord.opId
  nodup : (all.map OperationRecord.opId).Nodup
  renamable : Renamable all records
  renames : Renames encode target all records newOf plan.steps
  injOn : ∀ record ∈ records, ∀ record' ∈ records, newOf record.opId = newOf record'.opId →
    record.opId = record'.opId
  fresh : ∀ id, dir.Names id → ∀ op, encode op ≠ id

theorem exists_planned (h : Addressed digest disk dir) (hinj : InjectiveEncoder encode)
    (hfresh : ∀ id, dir.Names id → ∀ op, encode op ≠ id) (hplan : planMigration encode target disk dir = some plan) :
    ∃ all records newOf, Planned disk encode target dir plan all records newOf := by
  obtain ⟨all, hlist, hlisting, hevery⟩ := OpsDir.listAll_spec h.whole
  obtain ⟨records, newOf, hren, hrenames⟩ := planMigration_spec hlist hlisting.nodup hplan
  refine ⟨all, records, newOf, hlist, hlisting.held, hevery, hlisting.nodup, hren, hrenames,
    ?_, hfresh⟩
  refine hrenames.injOn hren hlisting.nodup hinj
    (fun record hrecord => h.addressed _ record (hlisting.held record hrecord)) ?_
  exact fun record hrecord p hp => hfresh p ⟨_, record, hlisting.held record hrecord, .inr hp⟩

namespace Planned

variable {records : List OperationRecord} {newOf : OpId → OpId}

variable {step : MigrationStep}

variable (h : Planned disk encode target dir plan all records newOf)
include h

theorem mem_steps : step ∈ plan.steps ↔ ∃ record ∈ all, renamingStep encode target newOf record = step := by
  rw [h.renames.steps_eq, mem_map]
  exact exists_congr fun record => and_congr_left fun _ => h.renamable.perm.mem_iff

variable {record : OperationRecord}

theorem newOpId_eq (hmem : record ∈ all) : (renamingStep encode target newOf record).newOpId = newOf record.opId :=
  (h.renames.new record (h.renamable.perm.mem_iff.mpr hmem)).symm

/-- Every new id is a hash under the new encoder, so no id of the old log. -/
theorem not_names_newOpId (hstep : step ∈ plan.steps) : ¬ dir.Names step.newOpId := by
  obtain ⟨record, _, rfl⟩ := h.mem_steps.mp hstep
  exact fun hnames => h.fresh _ hnames _ rfl

theorem names_oldOpId (hstep : step ∈ plan.steps) : dir.Names step.oldOpId := by
  obtain ⟨record, hrecord, rfl⟩ := h.mem_steps.mp hstep
  exact ⟨_, record, h.held record hrecord, .inl rfl⟩

theorem old_ne_new {step' : MigrationStep} (hstep : step ∈ plan.steps) (hstep' : step' ∈ plan.steps) :
    step.oldOpId ≠ step'.newOpId :=
  fun heq => h.not_names_newOpId hstep' (heq ▸ h.names_oldOpId hstep)

theorem nodup_newOpIds : (plan.steps.map MigrationStep.newOpId).Nodup := by
  have hmap : plan.steps.map MigrationStep.newOpId =
      records.map fun record => newOf record.opId := by
    rw [h.renames.steps_eq, map_map]
    exact map_congr_left fun record hrecord =>
      h.newOpId_eq (h.renamable.perm.mem_iff.mp hrecord)
  have hnd : (records.map OperationRecord.opId).Nodup :=
    (h.renamable.perm.map _).nodup_iff.mpr h.nodup
  rw [hmap]
  refine Nodup.map_on (fun record hrecord record' hrecord' heq => ?_) (Nodup.of_map _ hnd)
  exact inj_on_of_nodup_map hnd hrecord hrecord' (h.injOn record hrecord record' hrecord' heq)

variable (hwhole : OpsDir.Whole digest disk dir)
include hwhole

/-- **The directory after the plan**: the packs are as they were. -/
theorem files : (applyMigration dir plan).packs = dir.packs ∧ (applyMigration dir plan).indices = dir.indices ∧
      ∀ (id : OpId) (record : OperationRecord), (applyMigration dir plan).loose[id]? = some record ↔
          (dir.loose[id]? = some record ∧ ∀ step ∈ plan.steps, step.oldOpId ≠ id) ∨
            ∃ step ∈ plan.steps, step.newRecord = record ∧ record.opId = id := by
  refine applyMigration_files (fun step hstep => ?_) h.nodup_newOpIds
    (fun step hstep step' hstep' => h.old_ne_new hstep hstep') fun step hstep => ?_
  · obtain ⟨record, _, rfl⟩ := h.mem_steps.mp hstep
    rfl
  · refine Option.eq_none_iff_forall_not_mem.mpr fun record hrecord => ?_
    have hid := hwhole.loose _ record hrecord
    exact h.not_names_newOpId hstep ⟨_, record, ⟨hid, .inl hrecord⟩, .inl hid.symm⟩

theorem whole_apply : OpsDir.Whole digest disk (applyMigration dir plan) := by
  obtain ⟨hpacks, hindices, hloose⟩ := h.files hwhole
  refine ⟨fun id record hfile => ?_, by rw [hpacks, hindices]; exact hwhole.packs⟩
  rcases (hloose id record).mp hfile with ⟨hold, _⟩ | ⟨_, _, _, hid⟩
  · exact hwhole.loose id record hold
  · exact hid

/-- **What was packed stays readable**: no plan that replaced the log left a record in a pack. -/
theorem not_packedIn (hmigrated : Migrated disk encode target dir (applyMigration dir plan) plan) (hash : PackHash)
    (record : OperationRecord) : ¬ dir.PackedIn hash record := by
  intro hpacked
  obtain ⟨hpacks, hindices, _⟩ := h.files hwhole
  obtain ⟨old, hold, hid⟩ := mem_map.mp
    (h.every record.opId record ⟨rfl, .inr ⟨hash, hpacked⟩⟩)
  have hstep := h.mem_steps.mpr ⟨old, hold, rfl⟩
  have hgone := (hmigrated.gone _ hstep (h.old_ne_new hstep hstep)).1
  rw [OpsDir.get_eq_none_iff (h.whole_apply hwhole)] at hgone
  refine hgone record ⟨hid.symm, .inr ⟨hash, ?_⟩⟩
  unfold OpsDir.PackedIn
  rw [hpacks, hindices]
  exact hpacked

variable (hloose : ∀ hash record, ¬ dir.PackedIn hash record)
include hloose

/-- **With every record loose, what is held after the plan are its new records.** -/
theorem holds_apply {id : OpId} :
    (applyMigration dir plan).Holds id record ↔ ∃ step ∈ plan.steps, step.newRecord = record ∧ record.opId = id := by
  obtain ⟨hpacks, hindices, hfile⟩ := h.files hwhole
  have hnone : ∀ hash, ¬ (applyMigration dir plan).PackedIn hash record := by
    intro hash
    unfold OpsDir.PackedIn
    rw [hpacks, hindices]
    exact hloose hash record
  constructor
  · rintro ⟨hid, hl | ⟨hash, hp⟩⟩
    · rcases (hfile id record).mp hl with ⟨hold, hkept⟩ | hnew
      · -- a loose record of the old log has a step
        obtain ⟨old, hmem, holdid⟩ := mem_map.mp
          (h.every id record ⟨hid, .inl hold⟩)
        exact absurd holdid (hkept _ (h.mem_steps.mpr ⟨old, hmem, rfl⟩))
      · exact hnew
    · exact absurd hp (hnone hash)
  · rintro ⟨step, hstep, hrecord, hid⟩
    exact ⟨hid, .inl ((hfile id record).mpr (.inr ⟨step, hstep, hrecord, hid⟩))⟩

theorem agree_apply : (applyMigration dir plan).Agree := by
  intro id record record' hr hr'
  obtain ⟨step, hstep, rfl, hid⟩ := (h.holds_apply hwhole hloose).mp hr
  obtain ⟨step', hstep', rfl, hid'⟩ := (h.holds_apply hwhole hloose).mp hr'
  obtain ⟨old, hold, rfl⟩ := h.mem_steps.mp hstep
  obtain ⟨old', hold', rfl⟩ := h.mem_steps.mp hstep'
  have heq : (renamingStep encode target newOf old).newOpId =
      (renamingStep encode target newOf old').newOpId := hid.trans hid'.symm
  rw [inj_on_of_nodup_map h.nodup_newOpIds hstep hstep' heq]

/-- **With every record loose, `listAll` is the new records.** -/
theorem listAll_apply :
    ∃ out, (applyMigration dir plan).listAll disk = some out ∧ (out.map OperationRecord.opId).Nodup ∧
      out.Perm (plan.steps.map MigrationStep.newRecord) := by
  obtain ⟨out, hout, hlisting, hevery⟩ := OpsDir.listAll_spec (h.whole_apply hwhole)
  have hids : (plan.steps.map MigrationStep.newRecord).map OperationRecord.opId =
      plan.steps.map MigrationStep.newOpId := by
    rw [map_map]
    refine map_congr_left fun step hstep => ?_
    obtain ⟨old, _, rfl⟩ := h.mem_steps.mp hstep
    rfl
  have hnd : (plan.steps.map MigrationStep.newRecord).Nodup :=
    Nodup.of_map OperationRecord.opId (hids ▸ h.nodup_newOpIds)
  refine ⟨out, hout, hlisting.nodup,
    (perm_ext_iff_of_nodup (Nodup.of_map _ hlisting.nodup) hnd).mpr fun record => ?_⟩
  constructor
  · intro hmem
    obtain ⟨step, hstep, hrecord, _⟩ := (h.holds_apply hwhole hloose).mp (hlisting.held record hmem)
    exact mem_map.mpr ⟨step, hstep, hrecord⟩
  · intro hmem
    obtain ⟨step, hstep, rfl⟩ := mem_map.mp hmem
    have hheld := (h.holds_apply hwhole hloose).mpr ⟨step, hstep, rfl, rfl⟩
    obtain ⟨record, hrecord, hid⟩ := mem_map.mp (hevery _ _ hheld)
    rwa [h.agree_apply hwhole hloose _ _ _ hheld (hid ▸ hlisting.held record hrecord)]

omit hloose in
/-- A parent in the new format: its new id if the log holds it, itself otherwise. -/
theorem renamedParent (p : OpId) : RenamedParent disk dir plan p (newOf p) := by
  by_cases hp : p ∈ all.map OperationRecord.opId
  · obtain ⟨old, hold, rfl⟩ := mem_map.mp hp
    exact .inl ⟨_, h.mem_steps.mpr ⟨old, hold, rfl⟩, rfl, h.newOpId_eq hold⟩
  · refine .inr ⟨?_, h.renames.absent p hp⟩
    rw [OpsDir.get_eq_none_iff hwhole]
    exact fun record hr => hp (h.every p record hr)

omit hwhole hloose in
theorem mem_newOpIds_iff (hmem : record ∈ all) {p : OpId} (hp : p ∈ record.op.parents) :
    newOf p ∈ plan.steps.map MigrationStep.newOpId ↔ p ∈ all.map OperationRecord.opId := by
  constructor
  · intro hnew
    obtain ⟨step, hstep, heq⟩ := mem_map.mp hnew
    by_contra habsent
    rw [h.renames.absent p habsent] at heq
    exact h.not_names_newOpId hstep ⟨_, record, h.held record hmem, .inr (heq ▸ hp)⟩
  · intro hpresent
    obtain ⟨old, hold, rfl⟩ := mem_map.mp hpresent
    exact mem_map.mpr ⟨_, h.mem_steps.mpr ⟨old, hold, rfl⟩, h.newOpId_eq hold⟩

/-- **Planning again succeeds**: the new records are ranked as the old ones were. -/
theorem exists_plan_apply : ∃ plan', planMigration encode target disk (applyMigration dir plan) = some plan' := by
  obtain ⟨out, hout, hnd, hperm⟩ := h.listAll_apply hwhole hloose
  let oldIds : Set OpId := { id | id ∈ all.map OperationRecord.opId }
  have hinjOn : Set.InjOn newOf oldIds := by
    intro a ha b hb heq
    obtain ⟨r, hr, rfl⟩ := mem_map.mp ha
    obtain ⟨s, hs, rfl⟩ := mem_map.mp hb
    exact h.injOn r (h.renamable.perm.mem_iff.mpr hr) s (h.renamable.perm.mem_iff.mpr hs) heq
  have hold : ∀ id ∈ oldIds, invFunOn newOf oldIds (newOf id) = id := fun id hid =>
    hinjOn.leftInvOn_invFunOn hid
  have hrecord : ∀ r ∈ out, ∃ old ∈ all,
      (renamingStep encode target newOf old).newRecord = r := by
    intro r hr
    obtain ⟨step, hstep, rfl⟩ := mem_map.mp (hperm.mem_iff.mp hr)
    obtain ⟨old, hmem, rfl⟩ := h.mem_steps.mp hstep
    exact ⟨old, hmem, rfl⟩
  have hids : ∀ id, id ∈ out.map OperationRecord.opId ↔
      id ∈ plan.steps.map MigrationStep.newOpId := by
    intro id
    rw [(hperm.map _).mem_iff, map_map]
    refine iff_of_eq (congrArg (id ∈ ·) (map_congr_left fun step hstep => ?_))
    obtain ⟨old, _, rfl⟩ := h.mem_steps.mp hstep
    rfl
  refine planMigration_complete hout hnd
    (fun id => rankIn records (invFunOn newOf oldIds id)) (fun r hr p hp hpout => ?_)
    fun r hr => ?_
  · obtain ⟨old, hmem, rfl⟩ := hrecord r hr
    obtain ⟨q, hq, rfl⟩ := mem_map.mp hp
    have hqall := (h.mem_newOpIds_iff hmem hq).mp ((hids _).mp hpout)
    have hrank := h.renamable.rank_lt h.nodup (h.renamable.perm.mem_iff.mpr hmem) hq hqall
    show rankIn records (invFunOn newOf oldIds (newOf q)) <
      rankIn records (invFunOn newOf oldIds
        (renamingStep encode target newOf old).newOpId)
    rw [h.newOpId_eq hmem, hold q hqall, hold old.opId (mem_map_of_mem hmem)]
    exact hrank
  · obtain ⟨old, hmem, rfl⟩ := hrecord r hr
    show ((old.op.parents.map newOf).filter _).Nodup
    rw [filter_map]
    have hfilter : (old.op.parents.filter
        ((fun p => decide (p ∈ out.map OperationRecord.opId)) ∘ newOf)) =
        old.op.parents.filter fun p => decide (p ∈ all.map OperationRecord.opId) :=
      filter_congr fun p hp =>
        decide_eq_decide.mpr ((hids _).trans (h.mem_newOpIds_iff hmem hp))
    rw [hfilter]
    refine Nodup.map_on (fun p hp q hq heq => ?_)
      (h.renamable.single old (h.renamable.perm.mem_iff.mpr hmem))
    rw [mem_filter, decide_eq_true_iff] at hp hq
    exact hinjOn hp.2 hq.2 heq

/-- **With every record loose, a plan replaces the log.** -/
theorem migrated : Migrated disk encode target dir (applyMigration dir plan) plan := by
  obtain ⟨out, hout, hnd, hperm⟩ := h.listAll_apply hwhole hloose
  have hwhole' := h.whole_apply hwhole
  have hagree' := h.agree_apply hwhole hloose
  refine ⟨⟨out, hout, hperm⟩, fun step hstep _ => ⟨?_, ?_⟩, fun id record hget => ?_, ?_⟩
  · rw [OpsDir.get_eq_none_iff hwhole']
    intro record hr
    obtain ⟨step', hstep', rfl, hid⟩ := (h.holds_apply hwhole hloose).mp hr
    obtain ⟨old, _, rfl⟩ := h.mem_steps.mp hstep'
    exact h.old_ne_new hstep hstep' hid.symm
  · intro out' hout' hmem
    obtain rfl := Option.some.inj (hout.symm.trans hout')
    obtain ⟨record, hrecord, hid⟩ := mem_map.mp hmem
    obtain ⟨step', hstep', rfl⟩ := mem_map.mp (hperm.mem_iff.mp hrecord)
    obtain ⟨old, _, rfl⟩ := h.mem_steps.mp hstep'
    exact h.old_ne_new hstep hstep' hid.symm
  · obtain ⟨found, hfound, hheld, _⟩ := OpsDir.get_spec hwhole id
    rw [hget, Option.some.injEq] at hfound
    subst hfound
    have hold := hheld record rfl
    -- what is read is what was listed: both are the loose file
    obtain ⟨old, hmem, hid⟩ := mem_map.mp (h.every id record hold)
    have hsame : old = record := by
      rcases h.held old hmem with ⟨_, hl | ⟨hash, hp⟩⟩
      · rcases hold with ⟨_, hl' | ⟨hash, hp⟩⟩
        · rw [hid] at hl
          exact Option.some.inj (hl.symm.trans hl')
        · exact absurd hp (hloose hash record)
      · exact absurd hp (hloose hash old)
    subst hsame
    have hstep := h.mem_steps.mpr ⟨old, hmem, rfl⟩
    refine ⟨_, hstep, hid, ?_, rfl, rfl, ?_⟩
    · exact (OpsDir.get_eq_some_iff hwhole' hagree').mpr
        ((h.holds_apply hwhole hloose).mpr ⟨_, hstep, rfl, rfl⟩)
    · show Forall₂ _ old.op.parents (old.op.parents.map newOf)
      rw [forall₂_map_right_iff, forall₂_same]
      exact fun p _ => h.renamedParent hwhole p
  · obtain ⟨plan', hplan'⟩ := h.exists_plan_apply hwhole hloose
    refine ⟨plan', hplan', isNoOp_of_encoded hout hnd (fun record hrecord => ?_) hplan'⟩
    obtain ⟨step, hstep, rfl⟩ := mem_map.mp (hperm.mem_iff.mp hrecord)
    obtain ⟨old, _, rfl⟩ := h.mem_steps.mp hstep
    rfl

end Planned

/-- **A migration replaces the log exactly when no record is packed**: whatever puts, repacks and
evicts built it, and whatever injective encoder with fresh digests it is migrated with. -/
theorem migrated_iff (digest : Digest) (disk : Disk) (encode : Operation → OpId)
    (target : OperationFormat) (actions : List OpsDir.Action) (plan : MigrationPlan)
    (hcut : ∀ action ∈ actions, action.cut = none)
    (haddressed : ∀ action ∈ actions, action.Addressed digest) (hinj : InjectiveEncoder encode)
    (hfresh : ∀ id, (OpsDir.empty.run digest disk actions).Names id → ∀ op, encode op ≠ id)
    (hplan : planMigration encode target disk (OpsDir.empty.run digest disk actions) = some plan) :
    Migrated disk encode target (OpsDir.empty.run digest disk actions)
        (applyMigration (OpsDir.empty.run digest disk actions) plan) plan ↔
      ∀ hash record, ¬ (OpsDir.empty.run digest disk actions).PackedIn hash record := by
  have haddr : Addressed digest disk (OpsDir.empty.run digest disk actions) :=
    Addressed.run actions addressed_empty hcut haddressed
  obtain ⟨all, records, newOf, h⟩ := exists_planned haddr hinj hfresh hplan
  exact ⟨h.not_packedIn haddr.whole, h.migrated haddr.whole⟩

end Migrate

/-! ## A packed log -/

/-- An operation, a child of it, and the child in the new format. -/
def parentOp : Operation := .new (.addType "f" "s1" none) []
def childOp : Operation := .new (.addType "g" "s2" none) ["a"]
def renamedChildOp : Operation := .new (.addType "g" "s2" none) ["x"]

/-- The ids of the old format. -/
noncomputable def oldDigest : Digest :=
  Digest.ofTable [(parentOp.canonicalForm, "a"), (childOp.canonicalForm, "b"),
    ([("", .strs ["a", "b"])], "ab")] (by decide) (by decide)

/-- The ids of the new format. -/
noncomputable def newDigest : Digest :=
  Digest.ofTable [(parentOp.canonicalForm, "x"), (renamedChildOp.canonicalForm, "y")]
    (by decide) (by decide)

/-- The encoder of the new format. -/
noncomputable def newEncode (op : Operation) : OpId := op.opId newDigest

/-- The records of the two operations in the old format. -/
noncomputable def parentRecord : OperationRecord := .new oldDigest parentOp (.create "f" "s1")
noncomputable def childRecord : OperationRecord := .new oldDigest childOp (.create "g" "s2")

/-- Both operations are put. -/
noncomputable def looseLog : List OpsDir.Action :=
  [.put parentRecord none, .put childRecord none]

/-- … and packed. -/
noncomputable def packedLog : List OpsDir.Action := looseLog ++ [.repack 0 none]

/-- What the new encoder makes of the log. -/
noncomputable def twoStepPlan : MigrationPlan where
  target := .v1
  steps := [
    { oldOpId := "a", newOpId := "x"
      newRecord :=
        { opId := "x", formatVersion := .v1, op := parentOp, produces := .create "f" "s1" } },
    { oldOpId := "b", newOpId := "y"
      newRecord :=
        { opId := "y", formatVersion := .v1, op := renamedChildOp, produces := .create "g" "s2" } }]

theorem names_listed {digest : Digest} {disk : Disk} {dir : OpsDir}
    (hsound : OpsDir.Sound digest disk dir) {out : List OperationRecord}
    (hout : dir.listAll disk = some out) {id : OpId} (h : dir.Names id) :
    ∃ record ∈ out, id = record.opId ∨ id ∈ record.op.parents := by
  obtain ⟨held, record, hheld, hid⟩ := h
  obtain ⟨out', hout', hlisting, hevery⟩ := OpsDir.listAll_spec hsound.whole
  obtain rfl := Option.some.inj (hout.symm.trans hout')
  obtain ⟨listed, hlisted, heq⟩ := mem_map.mp (hevery held record hheld)
  obtain rfl := hsound.agree held listed record (heq ▸ hlisting.held listed hlisted) hheld
  exact ⟨listed, hlisted, hid⟩

/-- An id the table does not have, without a hash sign, is nobody's. -/
theorem tableHash_ne {table : List (CanonicalForm × OpId)} {id : OpId}
    (hid : id ∉ table.map Prod.snd) (hplain : '#' ∉ id.toList) (form : CanonicalForm) :
    tableHash table form ≠ id := by
  unfold tableHash
  split
  · rename_i found hfound
    rintro rfl
    exact hid (mem_map.mpr ⟨_, mem_of_lookup hfound, rfl⟩)
  · rintro rfl
    exact hplain (by simp)

theorem injective_newEncode : InjectiveEncoder newEncode :=
  fun op op' h => (opId_eq_iff newDigest op op').mp h

/-- Both puts bring a new id. -/
theorem allMeet_looseLog : OpsDir.AllMeet oldDigest OpsDir.plainDisk OpsDir.empty looseLog := by
  have hfirst : OpsDir.empty.get OpsDir.plainDisk parentRecord.opId = some none := by decide
  have hsecond : (OpsDir.empty.perform oldDigest OpsDir.plainDisk (.put parentRecord none)).get
      OpsDir.plainDisk childRecord.opId = some none := by decide
  refine ⟨fun stored h => ?_, fun stored h => ?_, trivial⟩
  · rw [hfirst] at h
    cases h
  · rw [hsecond] at h
    cases h

/-- The old log names the two old ids only, and the new encoder uses neither. -/
theorem fresh_newEncode {actions : List OpsDir.Action} (hsound : OpsDir.Sound oldDigest OpsDir.plainDisk
      (OpsDir.empty.run oldDigest OpsDir.plainDisk actions))
    (hout : (OpsDir.empty.run oldDigest OpsDir.plainDisk actions).listAll OpsDir.plainDisk =
      some [parentRecord, childRecord]) : ∀ id, (OpsDir.empty.run oldDigest OpsDir.plainDisk actions).Names id →
      ∀ op, newEncode op ≠ id := by
  intro id hnames op
  have hid : id = "a" ∨ id = "b" := by
    obtain ⟨record, hrecord, h⟩ := names_listed hsound hout hnames
    have hparent : parentRecord.opId = "a" ∧ parentRecord.op.parents = [] := by decide
    have hchild : childRecord.opId = "b" ∧ childRecord.op.parents = ["a"] := by decide
    simp only [mem_cons, not_mem_nil, or_false] at hrecord
    rcases hrecord with rfl | rfl
    · rw [hparent.1] at h
      simpa using h.imp_right fun hno => absurd hno not_mem_nil
    · rw [hchild.1, hchild.2] at h
      simpa [or_comm] using h
  rcases hid with rfl | rfl
  · exact tableHash_ne (by decide) (by decide) _
  · exact tableHash_ne (by decide) (by decide) _

/-- **A packed record survives its migration**: its old id is still read from the pack. -/
theorem packedLog_not_migrated :
    ¬ ∀ (digest : Digest) (disk : Disk) (encode : Operation → OpId) (target : OperationFormat)
      (actions : List OpsDir.Action) (plan : MigrationPlan), (∀ action ∈ actions, action.cut = none) →
      (∀ action ∈ actions, action.Addressed digest) → InjectiveEncoder encode →
      (∀ id, (OpsDir.empty.run digest disk actions).Names id → ∀ op, encode op ≠ id) →
      planMigration encode target disk (OpsDir.empty.run digest disk actions) = some plan →
      Migrated disk encode target (OpsDir.empty.run digest disk actions)
        (applyMigration (OpsDir.empty.run digest disk actions) plan) plan := by
  intro h
  have hsound := OpsDir.Sound.run [.repack 0 none]
    (OpsDir.Sound.run looseLog OpsDir.sound_empty allMeet_looseLog) ⟨trivial, trivial⟩
  have hmigrated := h oldDigest OpsDir.plainDisk newEncode .v1 packedLog twoStepPlan
    (by simp [packedLog, looseLog, OpsDir.Action.cut])
    (by simp [packedLog, looseLog, OpsDir.Action.Addressed, parentRecord, childRecord]) injective_newEncode
    (fresh_newEncode hsound (by decide)) (by decide)
  have hgone := (hmigrated.gone _ mem_cons_self (by decide)).1
  have hread : (applyMigration (OpsDir.empty.run oldDigest OpsDir.plainDisk packedLog)
      twoStepPlan).get OpsDir.plainDisk "a" = some (some parentRecord) := by decide
  rw [hgone] at hread
  cases hread

/-- The loose log is replaced. -/
theorem migrated_looseLog : Migrated OpsDir.plainDisk newEncode .v1
    (OpsDir.empty.run oldDigest OpsDir.plainDisk looseLog)
    (applyMigration (OpsDir.empty.run oldDigest OpsDir.plainDisk looseLog) twoStepPlan) twoStepPlan := by
  have hsound := OpsDir.Sound.run looseLog OpsDir.sound_empty allMeet_looseLog
  refine (migrated_iff oldDigest OpsDir.plainDisk newEncode .v1 looseLog twoStepPlan
    (by simp [looseLog, OpsDir.Action.cut])
    (by simp [looseLog, OpsDir.Action.Addressed, parentRecord, childRecord])
    injective_newEncode (fresh_newEncode hsound (by decide)) (by decide)).mpr ?_
  rintro hash record ⟨⟨index, hindex⟩, _⟩
  have hkeys : (OpsDir.empty.run oldDigest OpsDir.plainDisk looseLog).indices.keys = [] := by decide
  have := OpsDir.mem_keys_iff.mpr ⟨index, hindex⟩
  cases this

end LexLang.Vcs
