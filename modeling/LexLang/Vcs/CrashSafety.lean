/-
# LexLang.Vcs.CrashSafety — runs of puts, repacks and evicts, each possibly cut short

A run is any sequence of calls on the ops directory, each carried out whole or cut after any of its
steps. `maintenance_keeps` is what maintenance owes every reader of the log: cut anywhere, whatever
was readable and is no victim is read back as it was; run to the end, exactly the victims are gone
and `listAll` lists no id twice. It holds of the runs that meet two conditions (`Meets`): one id is
put with one record, and no evict is cut while it rewrites a pack whose survivors are nowhere else.
-/
import LexLang.Vcs.Maintenance

namespace LexLang.Vcs

open List Option Std.ExtTreeMap

namespace OpsDir

/-! ## `listAll` -/

section ListAll

variable {digest : Digest} {disk : Disk} {dir : OpsDir}

/-- Records the directory holds, no id twice. -/
structure Listing (dir : OpsDir) (out : List OperationRecord) : Prop where
  nodup : (out.map OperationRecord.opId).Nodup
  held : ∀ record ∈ out, dir.Holds record.opId record

/-- Taking one more record of the directory. -/
theorem Listing.snoc {out : List OperationRecord} (h : Listing dir out) {record : OperationRecord}
    (hheld : dir.Holds record.opId record) (hnew : record.opId ∉ out.map OperationRecord.opId) :
    Listing dir (out ++ [record]) := by
  refine ⟨?_, fun r hr => ?_⟩
  · rw [map_append]
    refine nodup_append'.mpr ⟨h.nodup, nodup_singleton _, ?_⟩
    simpa using hnew
  · rcases mem_append.mp hr with hr | hr
    · exact h.held r hr
    · obtain rfl := mem_singleton.mp hr
      exact hheld

theorem listLoose_spec (hwhole : Whole digest disk dir) : ∀ (ids : List OpId)
    (out : List OperationRecord), Listing dir out →
    ∃ out', dir.listLoose disk ids out = some out' ∧ Listing dir out' ∧ out.Sublist out' ∧
      ∀ id ∈ ids, ∀ record, dir.Holds id record → id ∈ out'.map OperationRecord.opId
  | [], out, h => ⟨out, rfl, h, Sublist.refl _, by simp⟩
  | id :: ids, out, h => by
    obtain ⟨found, hget, hsome, hnone⟩ := get_spec hwhole id
    cases found with
    | none =>
      obtain ⟨out', hlist, hout', hsub, hall⟩ := listLoose_spec hwhole ids out h
      refine ⟨out', by simp [listLoose, hget, hlist], hout', hsub, fun a ha record hr => ?_⟩
      rcases mem_cons.mp ha with rfl | ha
      · exact absurd hr (hnone rfl record)
      · exact hall a ha record hr
    | some record =>
      have hheld := hsome record rfl
      obtain rfl : record.opId = id := hheld.1
      have htake : Listing dir (takeUnseen out record) ∧ out.Sublist (takeUnseen out record) ∧
          record.opId ∈ (takeUnseen out record).map OperationRecord.opId := by
        unfold takeUnseen
        split
        · rename_i hseen
          exact ⟨h, Sublist.refl _, hseen⟩
        · rename_i hnew
          exact ⟨h.snoc hheld hnew, sublist_append_left _ _, by simp⟩
      obtain ⟨out', hlist, hout', hsub, hall⟩ :=
        listLoose_spec hwhole ids (takeUnseen out record) htake.1
      refine ⟨out', by simp [listLoose, hget, hlist], hout', htake.2.1.trans hsub,
        fun a ha r hr => ?_⟩
      rcases mem_cons.mp ha with rfl | ha
      · exact (hsub.map _).mem htake.2.2
      · exact hall a ha r hr

theorem listEntries_spec (hwhole : Whole digest disk dir) {hash : PackHash} {index : PackIndex}
    (hindex : dir.indices[hash]? = some index) : ∀ (entries : List (OpId × Nat))
    (out : List OperationRecord), (∀ entry ∈ entries, index[entry.1]? = some entry.2) →
    Listing dir out →
    ∃ out', dir.listEntries disk hash entries out = some out' ∧ Listing dir out' ∧
      out.Sublist out' ∧ ∀ entry ∈ entries, entry.1 ∈ out'.map OperationRecord.opId
  | [], out, _, h => ⟨out, rfl, h, Sublist.refl _, by simp⟩
  | (id, offset) :: entries, out, hentries, h => by
    obtain ⟨frames, hframes, hpack⟩ := hwhole.packs hash index hindex
    obtain ⟨record, hrecord, hid, hread⟩ :=
      hpack.read_of_entry (hentries (id, offset) mem_cons_self)
    have hrest : ∀ entry ∈ entries, index[entry.1]? = some entry.2 :=
      fun entry hentry => hentries entry (mem_cons_of_mem _ hentry)
    by_cases hseen : id ∈ out.map OperationRecord.opId
    · obtain ⟨out', hlist, hout', hsub, hall⟩ :=
        listEntries_spec hwhole hindex entries out hrest h
      refine ⟨out', by rw [listEntries, if_pos hseen, hlist], hout', hsub, fun entry hentry => ?_⟩
      rcases mem_cons.mp hentry with rfl | hentry
      · exact (hsub.map _).mem hseen
      · exact hall entry hentry
    · subst hid
      have hheld : dir.Holds record.opId record :=
        ⟨rfl, .inr ⟨hash, ⟨index, hindex⟩, frames, hframes, hrecord⟩⟩
      obtain ⟨out', hlist, hout', hsub, hall⟩ :=
        listEntries_spec hwhole hindex entries (out ++ [record]) hrest (h.snoc hheld hseen)
      have hread' : dir.readPackedOp disk hash offset = some record := by
        simp [readPackedOp, hframes, hread]
      refine ⟨out', by rw [listEntries, if_neg hseen, hread']; exact hlist, hout',
        (sublist_append_left _ _).trans hsub, fun entry hentry => ?_⟩
      rcases mem_cons.mp hentry with rfl | hentry
      · exact (hsub.map _).mem (by simp)
      · exact hall entry hentry

theorem listPacks_spec (hwhole : Whole digest disk dir) : ∀ (hashes : List PackHash)
    (out : List OperationRecord), (∀ hash ∈ hashes, ∃ index, dir.indices[hash]? = some index) →
    Listing dir out →
    ∃ out', dir.listPacks disk hashes out = some out' ∧ Listing dir out' ∧ out.Sublist out' ∧
      ∀ hash ∈ hashes, ∀ record, dir.PackedIn hash record →
        record.opId ∈ out'.map OperationRecord.opId
  | [], out, _, h => ⟨out, rfl, h, Sublist.refl _, by simp⟩
  | hash :: hashes, out, hlisted, h => by
    obtain ⟨index, hindex⟩ := hlisted hash mem_cons_self
    obtain ⟨frames, hframes, hpack⟩ := hwhole.packs hash index hindex
    obtain ⟨mid, hmid, hlisting, hsub, hall⟩ := listEntries_spec hwhole hindex index.toList out
      (fun entry hentry => mem_toList_iff_getElem?_eq_some.mp hentry) h
    obtain ⟨out', hlist, hout', hsub', hall'⟩ := listPacks_spec hwhole hashes mid
      (fun hash hmem => hlisted hash (mem_cons_of_mem _ hmem)) hlisting
    refine ⟨out', by simp [listPacks, hindex, hmid, hlist], hout', hsub.trans hsub', ?_⟩
    intro hash' hmem record hp
    rcases mem_cons.mp hmem with rfl | hmem
    · obtain ⟨_, frames', hframes', hrecord⟩ := hp
      obtain rfl := some.inj (hframes.symm.trans hframes')
      obtain ⟨offset, hoffset, _⟩ := hpack.entry_of_mem hrecord
      exact (hsub'.map _).mem
        (hall (record.opId, offset) (mem_toList_iff_getElem?_eq_some.mpr hoffset))
    · exact hall' hash' hmem record hp

/-- **`listAll` on a whole directory**: no error, no id twice, records the directory holds, and every
id it holds. -/
theorem listAll_spec (hwhole : Whole digest disk dir) : ∃ out, dir.listAll disk = some out ∧ Listing dir out ∧
      ∀ id record, dir.Holds id record → id ∈ out.map OperationRecord.opId := by
  obtain ⟨mid, hmid, hlisting, _, hall⟩ := listLoose_spec hwhole (disk.readLoose dir) []
    ⟨nodup_nil, by simp⟩
  obtain ⟨out, hout, hlisting', hsub, hall'⟩ := listPacks_spec hwhole (disk.readPacks dir) mid
    (fun hash hmem => mem_readPacks.mp hmem) hlisting
  refine ⟨out, by simp [listAll, hmid, hout], hlisting', ?_⟩
  rintro id record ⟨rfl, hl | ⟨hash, hp⟩⟩
  · exact (hsub.map _).mem (hall record.opId (mem_readLoose.mpr ⟨record, hl⟩) record ⟨rfl, .inl hl⟩)
  · exact hall' hash (mem_readPacks.mpr hp.1) record hp

end ListAll

/-! ## Runs -/

/-- A call, and after how many of its steps it is cut short, if it is. -/
inductive Action
  | put (record : OperationRecord) (cut : Option Nat)
  | repack (threshold : Nat) (cut : Option Nat)
  | evict (victims : Finset OpId) (cut : Option Nat)

section Run

variable (digest : Digest) (disk : Disk)

/-- The steps of a call, and whether it runs to the end without error. -/
def steps (dir : OpsDir) : Action → List FsStep × Bool
  | .put record _ => (dir.putSteps record, true)
  | .repack threshold _ => (dir.repackSteps digest disk threshold, true)
  | .evict victims _ => dir.evictSteps digest disk victims

/-- Where a call is cut. -/
def Action.cut : Action → Option Nat
  | .put _ cut | .repack _ cut | .evict _ cut => cut

/-- The ids a call is to remove. -/
def Action.victims : Action → Finset OpId
  | .put _ _ | .repack _ _ => ∅
  | .evict victims _ => victims

/-- **One call**, as far as it gets. -/
def perform (dir : OpsDir) (action : Action) : OpsDir :=
  let all := (dir.steps digest disk action).1
  dir.applyAll (match action.cut with
    | some k => all.take k
    | none => all)

/-- **A run.** -/
def run (dir : OpsDir) (actions : List Action) : OpsDir :=
  actions.foldl (perform digest disk) dir

/-- **The conditions on a step.** A put brings an id no other record; an evict is not cut while it
rewrites a pack, unless what is to stay of it can be read elsewhere. -/
def Meets (dir : OpsDir) : Action → Prop
  | .put record _ => ∀ stored, dir.get disk record.opId = some (some stored) → stored = record
  | .repack _ _ => True
  | .evict _ none => True
  | .evict victims (some k) =>
    let loose := dir.evictLoose disk victims
    let dir := dir.applyAll loose
    dir.CutSafe digest disk victims (disk.readPacks dir) (k - loose.length)

/-- Every step of a run meets its condition. -/
def AllMeet : OpsDir → List Action → Prop
  | _, [] => True
  | dir, action :: actions =>
    dir.Meets digest disk action ∧ AllMeet (dir.perform digest disk action) actions

/-- **What maintenance owes the readers.** Cut or not, it leaves every record readable that is no
victim; run to the end, it has no error, leaves `get` as it was but for the victims, which it
removes, and leaves a log that is listed without repetition. -/
def LosesNothing (dir : OpsDir) (action : Action) : Prop :=
  let dir' := dir.perform digest disk action
  (∀ id ∉ action.victims, ∀ record, dir.get disk id = some (some record) →
    dir'.get disk id = some (some record)) ∧
  (action.cut = none →
    (dir.steps digest disk action).2 = true ∧
    (∀ id ∉ action.victims, dir'.get disk id = dir.get disk id) ∧
    (∀ id ∈ action.victims, dir'.get disk id = some none) ∧
    ∃ out, dir'.listAll disk = some out ∧ (out.map OperationRecord.opId).Nodup)

/-- A repack or an evict. -/
def Action.isMaintenance : Action → Prop
  | .put _ _ => False
  | .repack _ _ | .evict _ _ => True

end Run

/-! ## Every step keeps the log -/

section Steps

variable {digest : Digest} {disk : Disk} {dir : OpsDir}

/-- A call is a prefix of its steps: all of them when it is not cut. -/
theorem perform_eq_take (digest : Digest) (disk : Disk) (dir : OpsDir) (action : Action) :
    ∃ k, dir.perform digest disk action = dir.applyAll ((dir.steps digest disk action).1.take k) ∧
      (∀ n, action.cut = some n → k = n) ∧ (action.cut = none → k = (dir.steps digest disk action).1.length) := by
  unfold perform
  cases hcut : action.cut with
  | none => exact ⟨(dir.steps digest disk action).1.length, by rw [take_length], by simp, by simp⟩
  | some n => exact ⟨n, rfl, fun _ h => some.inj h, by simp⟩

variable {action : Action}

theorem perform_whole (digest : Digest) (disk : Disk) (dir : OpsDir) (h : action.cut = none) :
    dir.perform digest disk action = dir.applyAll (dir.steps digest disk action).1 := by
  unfold perform
  rw [h]

/-- A put changes no pack, and no loose file but its own. -/
theorem perform_put (digest : Digest) (disk : Disk) (dir : OpsDir) (record : OperationRecord) (cut : Option Nat) :
    (dir.perform digest disk (.put record cut)).packs = dir.packs ∧
      (dir.perform digest disk (.put record cut)).indices = dir.indices ∧
      ((dir.perform digest disk (.put record cut)).loose = dir.loose ∨
        (dir.perform digest disk (.put record cut)).loose = dir.loose.insert record.opId record) := by
  obtain ⟨k, hk, _⟩ := perform_eq_take digest disk dir (.put record cut)
  rw [hk]
  simp only [steps, putSteps]
  by_cases hseen : dir.loose[record.opId]?.isSome
  · rw [if_pos hseen, take_nil]
    exact ⟨rfl, rfl, .inl rfl⟩
  · rw [if_neg hseen]
    match k with
    | 0 => exact ⟨rfl, rfl, .inl rfl⟩
    | 1 => exact ⟨rfl, rfl, .inl rfl⟩
    | k + 2 => simp [applyAll, apply]

variable (hwhole : Whole digest disk dir)
include hwhole

/-- **A put, cut anywhere**, keeps the files together, and at most its own record is new. -/
theorem put_spec (record : OperationRecord) (cut : Option Nat) :
    Whole digest disk (dir.perform digest disk (.put record cut)) ∧
      ∀ id r, (dir.perform digest disk (.put record cut)).Holds id r →
        dir.Holds id r ∨ (id = record.opId ∧ r = record) := by
  obtain ⟨hpacks, hindices, hloose⟩ := perform_put digest disk dir record cut
  have hfile : ∀ (id : OpId) (r : OperationRecord),
      (dir.perform digest disk (.put record cut)).loose[id]? = some r →
        dir.loose[id]? = some r ∨ (id = record.opId ∧ r = record) := by
    intro id r h
    rcases hloose with hloose | hloose
    · rw [hloose] at h
      exact .inl h
    · rw [hloose, getElem?_insert_eq] at h
      split at h
      · rename_i hid
        exact .inr ⟨hid.symm, (some.inj h).symm⟩
      · exact .inl h
  refine ⟨⟨fun id r h => ?_, by rw [hpacks, hindices]; exact hwhole.packs⟩, ?_⟩
  · rcases hfile id r h with h | ⟨rfl, rfl⟩
    · exact hwhole.loose id r h
    · rfl
  · rintro id r ⟨hid, hl | ⟨hash, hp⟩⟩
    · exact (hfile id r hl).imp_left fun h => ⟨hid, .inl h⟩
    · unfold PackedIn at hp
      rw [hpacks, hindices] at hp
      exact .inl ⟨hid, .inr ⟨hash, hp⟩⟩

/-- **An evict, cut where it does no harm, keeps the log.** -/
theorem keeps_evict_take {victims : Finset OpId} {k : Nat}
    (hsafe : (dir.applyAll (dir.evictLoose disk victims)).CutSafe digest disk victims
      (disk.readPacks (dir.applyAll (dir.evictLoose disk victims))) (k - (dir.evictLoose disk victims).length)) :
    Keeps digest disk victims dir (dir.applyAll ((dir.evictSteps digest disk victims).1.take k)) := by
  have hloose := keeps_evictLoose victims hwhole k
  unfold evictSteps
  simp only
  rw [take_append, applyAll_append]
  refine hloose.trans ?_
  by_cases hk : (dir.evictLoose disk victims).length ≤ k
  · rw [take_of_length_le hk] at hloose ⊢
    exact keeps_evictPacks_take _ _ _ hloose.whole hsafe
  · have hzero : k - (dir.evictLoose disk victims).length = 0 := by omega
    rw [hzero, take_zero]
    exact Keeps.refl hloose.whole

/-- **An evict run to the end** has no error, keeps the log, and leaves no victim. -/
theorem keeps_evict (victims : Finset OpId) :
    (dir.evictSteps digest disk victims).2 = true ∧ Keeps digest disk victims dir
        (dir.applyAll (dir.evictSteps digest disk victims).1) ∧ ∀ id ∈ victims, ∀ record,
        ¬ (dir.applyAll (dir.evictSteps digest disk victims).1).Holds id record := by
  have hloose := keeps_evictLoose victims hwhole (dir.evictLoose disk victims).length
  rw [take_length] at hloose
  obtain ⟨hok, hpacks, hsame, hnone⟩ := keeps_evictPacks victims
    (disk.readPacks (dir.applyAll (dir.evictLoose disk victims))) _ hloose.whole
    ((disk.readPacks_perm _).nodup_iff.mpr nodup_keys)
    (fun hash hmem => mem_readPacks.mp hmem)
    fun hash record hp _ => mem_readPacks.mpr hp.1
  unfold evictSteps
  simp only
  rw [applyAll_append]
  refine ⟨hok, hloose.trans hpacks, ?_⟩
  rintro id hvictim record ⟨hid, hl | ⟨hash, hp⟩⟩
  · -- every victim's loose file was listed, and went first
    rw [hsame, evictLoose, (applyAll_removeLoose _ _).2.2 id] at hl
    split at hl
    · cases hl
    · rename_i hno
      exact hno (mem_filter.mpr ⟨mem_readLoose.mpr ⟨record, hl⟩, decide_eq_true hvictim⟩)
  · exact hnone hash record hp (hid ▸ hvictim)

/-- **Maintenance that meets its condition keeps the log.** -/
theorem keeps_perform (hmaint : action.isMaintenance) (hmeet : dir.Meets digest disk action) :
    Keeps digest disk action.victims dir (dir.perform digest disk action) := by
  cases action with
  | put record cut => exact absurd hmaint id
  | repack threshold cut =>
    obtain ⟨k, hk, _⟩ := perform_eq_take digest disk dir (.repack threshold cut)
    rw [hk]
    exact keeps_repack hwhole threshold k
  | evict victims cut =>
    cases cut with
    | none =>
      rw [perform_whole digest disk dir rfl]
      exact (keeps_evict hwhole victims).2.1
    | some n => exact keeps_evict_take hwhole hmeet

omit hwhole

/-! ## The log through a run -/

/-- What a run keeps: the files belong together, and one id stands for one record. -/
structure Sound (digest : Digest) (disk : Disk) (dir : OpsDir) : Prop where
  whole : Whole digest disk dir
  agree : dir.Agree

theorem sound_empty : Sound digest disk empty := by
  have hnone : ∀ id record, ¬ empty.Holds id record := by
    rintro id record ⟨_, h | ⟨_, ⟨_, h⟩, _⟩⟩ <;> simp [empty] at h
  refine ⟨⟨fun id record h => ?_, fun hash index h => ?_⟩, fun id record _ h => ?_⟩
  · simp [empty] at h
  · simp [empty] at h
  · exact absurd h (hnone id record)

/-- **A step that meets its condition keeps the directory sound.** -/
theorem Sound.perform (h : Sound digest disk dir) (hmeet : dir.Meets digest disk action) :
    Sound digest disk (dir.perform digest disk action) := by
  cases action with
  | put record cut =>
    obtain ⟨hwhole, hnew⟩ := put_spec h.whole record cut
    -- whatever the directory held under the id is the record put
    have hsame : ∀ r, dir.Holds record.opId r → r = record :=
      fun r hr => hmeet r ((get_eq_some_iff h.whole h.agree).mpr hr)
    refine ⟨hwhole, fun id r r' hr hr' => ?_⟩
    rcases hnew id r hr with hold | ⟨rfl, rfl⟩
    · rcases hnew id r' hr' with hold' | ⟨rfl, rfl⟩
      · exact h.agree id r r' hold hold'
      · exact hsame r hold
    · rcases hnew _ r' hr' with hold' | ⟨_, rfl⟩
      · exact (hsame r' hold').symm
      · rfl
  | repack threshold cut =>
    have hmaint : (Action.repack threshold cut).isMaintenance := trivial
    have hkeeps := keeps_perform h.whole hmaint hmeet
    exact ⟨hkeeps.whole, hkeeps.agree h.agree⟩
  | evict victims cut =>
    have hmaint : (Action.evict victims cut).isMaintenance := trivial
    have hkeeps := keeps_perform h.whole hmaint hmeet
    exact ⟨hkeeps.whole, hkeeps.agree h.agree⟩

theorem Sound.run : ∀ (actions : List Action) {dir : OpsDir}, Sound digest disk dir →
    AllMeet digest disk dir actions → Sound digest disk (dir.run digest disk actions)
  | [], _, h, _ => h
  | _ :: actions, _, h, hmeet => Sound.run actions (h.perform hmeet.1) hmeet.2

/-- **What maintenance owes, from a sound directory.** -/
theorem Sound.losesNothing (h : Sound digest disk dir)
    (hmaint : action.isMaintenance) (hmeet : dir.Meets digest disk action) : dir.LosesNothing digest disk action := by
  have hkeeps := keeps_perform h.whole hmaint hmeet
  have hsound := h.perform hmeet
  have hread : ∀ id ∉ action.victims, ∀ record, dir.get disk id = some (some record) ↔
      (dir.perform digest disk action).get disk id = some (some record) := by
    intro id hid record
    rw [get_eq_some_iff h.whole h.agree, get_eq_some_iff hsound.whole hsound.agree, hkeeps.holds h.agree hid]
  refine ⟨fun id hid record hr => (hread id hid record).mp hr, fun hcut => ⟨?_, ?_, ?_, ?_⟩⟩
  · cases action with
    | put _ _ | repack _ _ => rfl
    | evict victims _ => exact (keeps_evict h.whole victims).1
  · intro id hid
    obtain ⟨found, hfound, hsome, hnone⟩ := get_spec h.whole id
    rw [hfound]
    cases found with
    | some record => exact (hread id hid record).mp hfound
    | none =>
      rw [get_eq_none_iff hsound.whole]
      exact fun record hr => hnone rfl record ((hkeeps.holds h.agree hid).mp hr)
  · intro id hid
    rw [get_eq_none_iff hsound.whole, perform_whole digest disk dir hcut]
    cases action with
    | put _ _ | repack _ _ => simp [Action.victims] at hid
    | evict victims _ => exact (keeps_evict h.whole victims).2.2 id hid
  · obtain ⟨out, hout, hlisting, _⟩ := listAll_spec hsound.whole
    exact ⟨out, hout, hlisting.nodup⟩

/-- **Maintenance loses nothing**, whatever was done before: after any run of puts, repacks and
evicts, each whole or cut short, all of whose steps meet their conditions, every further repack or
evict that meets its own owes its readers nothing. -/
theorem maintenance_keeps (actions : List Action) (hmeets : AllMeet digest disk empty actions)
    (action : Action) (hmaint : action.isMaintenance)
    (hmeet : (empty.run digest disk actions).Meets digest disk action) :
    (empty.run digest disk actions).LosesNothing digest disk action :=
  (Sound.run actions sound_empty hmeets).losesNothing hmaint hmeet

end Steps

/-! ## An evict cut while it rewrites a pack -/

/-- A disk that lists its files by name. -/
def plainDisk : Disk where
  size := fun _ => 100
  readLoose := fun dir => dir.loose.keys
  readLoose_perm := fun _ => Perm.refl _
  readPacks := fun dir => dir.indices.keys
  readPacks_perm := fun _ => Perm.refl _

/-- Two operations. -/
def packedOp : Operation := .new (.addType "f" "s1" none) []
def doomedOp : Operation := .new (.addType "g" "s2" none) []

/-- The hashes of the two operations and of the packs that hold one or both. -/
noncomputable def packDigest : Digest :=
  Digest.ofTable [(packedOp.canonicalForm, "a"), (doomedOp.canonicalForm, "b"),
    ([("", .strs ["a", "b"])], "ab"), ([("", .strs ["a"])], "pa")] (by decide) (by decide)

noncomputable def packedRecord : OperationRecord := .new packDigest packedOp (.create "f" "s1")
noncomputable def doomedRecord : OperationRecord := .new packDigest doomedOp (.create "g" "s2")

/-- Both operations are put and packed. -/
noncomputable def packedRun : List Action :=
  [.put packedRecord none, .put doomedRecord none, .repack 0 none]

/-- **Cut after the old pack is gone, an evict loses the operation that was to stay.** -/
theorem evictCut_loses : ¬ ∀ (digest : Digest) (disk : Disk) (actions : List Action) (action : Action),
      action.isMaintenance → (empty.run digest disk actions).LosesNothing digest disk action := by
  intro h
  have hcut := (h packDigest plainDisk packedRun (.evict {"b"} (some 2)) trivial).1 "a" (by decide)
    packedRecord (by decide)
  have hlost : ((empty.run packDigest plainDisk packedRun).perform packDigest plainDisk
      (.evict {"b"} (some 2))).get plainDisk "a" = some none := by decide
  rw [hcut] at hlost
  cases hlost

/-- Neither put meets a record of its id. -/
theorem packedRun_meets : AllMeet packDigest plainDisk empty packedRun := by
  refine ⟨?_, ?_, trivial, trivial⟩
  · intro stored hstored
    have : (empty.get plainDisk packedRecord.opId) = some none := by decide
    rw [this] at hstored
    cases hstored
  · intro stored hstored
    have : ((empty.perform packDigest plainDisk (.put packedRecord none)).get plainDisk
      doomedRecord.opId) = some none := by decide
    rw [this] at hstored
    cases hstored

/-- The same evict run to the end. -/
theorem maintenance_keeps_packedRun : (empty.run packDigest plainDisk packedRun).LosesNothing packDigest plainDisk
      (.evict {"b"} none) :=
  maintenance_keeps packedRun packedRun_meets _ trivial trivial

end OpsDir

end LexLang.Vcs
