/-
# LexLang.Vcs.DirWalk — the log that an ops directory stores, and the walk over its files

`OpLog::walk_back` reads one record after the other from the files (`lex-vcs/src/op_log.rs`), and
fails with the first read that fails. `OpsDir.log` is the map from ids to records that the reads
amount to; where every record is filed under its own id (`Filed`), a walk over the files that does
not fail is the walk over that map (`walkBackLoop_log`), and a full listing is its records, each
once (`mem_listAll_iff`).
-/
import LexLang.Vcs.CrashSafety
import LexLang.Vcs.ReplayOrder

namespace LexLang.Vcs

open List Option Std.ExtTreeMap

namespace OpsDir

section Defs

variable (disk : Disk) (dir : OpsDir)

/-- **Every record is filed under its own id**, as far as it can be read. -/
def Filed : Prop :=
  ∀ (id : OpId) (record : OperationRecord), dir.get disk id = some (some record) → record.opId = id

/-- The parents of the record that is read under an id: the successor function of the DAG. -/
def parentsOf (id : OpId) : Option (List OpId) :=
  match dir.get disk id with
  | some (some record) => some record.op.parents
  | some none | none => none

/-- Every record in a loose file or in the body of a pack. -/
def stored : List OperationRecord :=
  dir.loose.toList.map Prod.snd ++ dir.packs.toList.flatMap Prod.snd

/-- What is read under the ids of the stored records. -/
def readable : List OperationRecord :=
  dir.stored.filterMap fun record => (dir.get disk record.opId).bind id

/-- **The log that the directory stores.** -/
def log : OpLog := (dir.readable disk).foldl OpLog.put .empty

/-- The loop of `walkBack` over the files; `none` is an I/O error. -/
def walkBackLoop (limit : Option Nat) :
    Nat → Finset OpId → List OpId → List OperationRecord → Option (List OperationRecord)
  | 0, _, _, out => some out
  | _ + 1, _, [], out => some out
  | fuel + 1, seen, id :: frontier, out =>
    if id ∈ seen then walkBackLoop limit fuel seen frontier out
    else
      match dir.get disk id with
      | none => none
      | some none => walkBackLoop limit fuel (insert id seen) frontier out
      | some (some record) =>
        let frontier := frontier ++
          record.op.parents.filter fun p => decide (p ∉ insert id seen)
        let out := out ++ [record]
        if limit.any fun n => decide (n ≤ out.length) then some out
        else walkBackLoop limit fuel (insert id seen) frontier out

/-- **Walk parents transitively**, from file to file. -/
def walkBack (head : OpId) (limit : Option Nat) : Option (List OperationRecord) :=
  dir.walkBackLoop disk limit (dir.log disk).walkFuel ∅ [head] []

end Defs

variable {digest : Digest} {disk : Disk} {dir : OpsDir}

theorem filed_of_whole (hwhole : Whole digest disk dir) : dir.Filed disk := by
  intro id record hget
  obtain ⟨found, hfound, hheld, -⟩ := get_spec hwhole id
  rw [hget] at hfound
  exact (hheld record (some.inj hfound).symm).1

/-! ## The log -/

variable {record : OperationRecord} {id : OpId}

section Log

/-- Putting records that agree by id into a log: each id has the record that stood for it, if one
did, and else the one among them. -/
theorem get_foldl_put (id : OpId) (record : OperationRecord) :
    ∀ (records : List OperationRecord) (log : OpLog),
      (∀ r ∈ records, r.opId = id → r = record) → record.opId = id →
      ((records.foldl OpLog.put log).get id = some record ↔
        log.get id = some record ∨ (log.get id = none ∧ record ∈ records))
  | [], log, _, _ => by simp
  | r :: records, log, hsame, hid => by
    rw [foldl_cons, get_foldl_put id record records (log.put r)
      (fun r' hr' => hsame r' (mem_cons_of_mem _ hr')) hid, OpLog.get_put]
    cases hget : log.get id with
    | some stored => simp
    | none =>
      by_cases hr : r.opId = id
      · obtain rfl := hsame r mem_cons_self hr
        simp [hr]
      · have hne : record ≠ r := fun h => hr (h ▸ hid)
        simp [hr, hne]

theorem get_foldl_put_of_forall_ne (id : OpId) : ∀ (records : List OperationRecord) (log : OpLog),
    (∀ r ∈ records, r.opId ≠ id) → (records.foldl OpLog.put log).get id = log.get id
  | [], _, _ => rfl
  | r :: records, log, hne => by
    rw [foldl_cons, get_foldl_put_of_forall_ne id records _ fun r' hr' => hne r' (mem_cons_of_mem _ hr'),
      OpLog.get_put, if_neg (hne r mem_cons_self), or_none]

theorem mem_of_readFrame : ∀ (frames : List OperationRecord) (offset : Nat)
    {record : OperationRecord}, readFrame disk frames offset = some record → record ∈ frames
  | [], _, _, h => by simp [readFrame] at h
  | first :: frames, 0, _, h => by
    obtain rfl := some.inj h
    exact mem_cons_self
  | first :: frames, offset + 1, record, h => by
    simp only [readFrame] at h
    split at h
    · exact mem_cons_of_mem _ (mem_of_readFrame frames _ h)
    · cases h

theorem mem_stored_of_readPackedOp {hash : PackHash} {offset : Nat}
    (h : dir.readPackedOp disk hash offset = some record) : record ∈ dir.stored := by
  unfold readPackedOp at h
  obtain ⟨frames, hframes, hread⟩ := bind_eq_some_iff.mp h
  apply mem_append_right
  apply mem_flatMap.mpr
  exact ⟨(hash, frames), mem_toList_iff_getElem?_eq_some.mpr hframes,
    mem_of_readFrame frames offset hread⟩

theorem mem_stored_of_scanPacks :
    ∀ {hashes : List PackHash}, dir.scanPacks disk id hashes = some (some record) →
      record ∈ dir.stored
  | [], h => by simp [scanPacks] at h
  | hash :: hashes, h => by
    unfold scanPacks at h
    cases hindex : dir.indices[hash]? with
    | none => simp [hindex] at h
    | some index =>
      simp only [hindex] at h
      cases hentry : index[id]? with
      | none =>
        simp only [hentry] at h
        exact mem_stored_of_scanPacks h
      | some offset =>
        simp only [hentry, map_eq_some_iff, some.injEq, exists_eq_right] at h
        exact mem_stored_of_readPackedOp h

theorem mem_stored_of_get (h : dir.get disk id = some (some record)) : record ∈ dir.stored := by
  unfold get at h
  cases hloose : dir.loose[id]? with
  | some found =>
    simp only [hloose, some.injEq] at h
    subst h
    apply mem_append_left
    apply List.mem_map.mpr
    exact ⟨(id, found), mem_toList_iff_getElem?_eq_some.mpr hloose, rfl⟩
  | none =>
    simp only [hloose] at h
    exact mem_stored_of_scanPacks h

/-- **The log has under an id what is read under it.** -/
theorem get_log (hfiled : dir.Filed disk) :
    (dir.log disk).get id = some record ↔ dir.get disk id = some (some record) := by
  have hmem : ∀ r, r ∈ dir.readable disk ↔
      ∃ s ∈ dir.stored, dir.get disk s.opId = some (some r) := by
    intro r
    simp [readable, mem_filterMap, bind_eq_some_iff]
  have hread : ∀ r ∈ dir.readable disk, dir.get disk r.opId = some (some r) := by
    intro r hr
    obtain ⟨s, _, hs⟩ := (hmem r).mp hr
    rw [hfiled _ _ hs]
    exact hs
  have hsame : ∀ {id record}, dir.get disk id = some (some record) →
      ∀ r ∈ dir.readable disk, r.opId = id → r = record := by
    intro id record hget r hr hid
    have h := hread r hr
    rw [hid, hget] at h
    exact (some.inj (some.inj h)).symm
  constructor
  · intro h
    obtain rfl := OpLog.get_opId h
    -- what the log has was read, and it was read under its own id
    have hin : ∃ r ∈ dir.readable disk, r.opId = record.opId := by
      by_contra hnone
      push Not at hnone
      unfold log at h
      rw [get_foldl_put_of_forall_ne record.opId _ _ hnone, OpLog.get_empty] at h
      cases h
    obtain ⟨r, hr, hid⟩ := hin
    have hget := hread r hr
    have hlog := (get_foldl_put r.opId r (dir.readable disk) .empty (hsame hget) rfl).mpr
      (.inr ⟨OpLog.get_empty _, hr⟩)
    unfold log at h
    rw [← hid, hlog] at h
    obtain rfl := some.inj h
    exact hget
  · intro h
    have hid := hfiled _ _ h
    refine (get_foldl_put id record _ _ (hsame h) hid).mpr (.inr ⟨OpLog.get_empty _, ?_⟩)
    exact (hmem record).mpr ⟨record, mem_stored_of_get h, hid ▸ h⟩

theorem parentsOf_log (hfiled : dir.Filed disk) : (dir.log disk).parentsOf = dir.parentsOf disk := by
  funext id
  unfold OpLog.parentsOf parentsOf
  cases hget : dir.get disk id with
  | none =>
    cases hlog : (dir.log disk).get id with
    | none => rfl
    | some record => simp [(get_log hfiled).mp hlog] at hget
  | some found =>
    cases found with
    | some record => rw [(get_log hfiled).mpr hget, map_some]
    | none =>
      cases hlog : (dir.log disk).get id with
      | none => rfl
      | some record => simp [(get_log hfiled).mp hlog] at hget

theorem get_log_eq_none (hfiled : dir.Filed disk) (h : dir.get disk id = some none) :
    (dir.log disk).get id = none := by
  cases hlog : (dir.log disk).get id with
  | none => rfl
  | some record => simp [(get_log hfiled).mp hlog] at h

end Log

/-! ## The walk -/

variable {out : List OperationRecord}

section Walk

variable {limit : Option Nat}

/-- **A walk over the files that does not fail is the walk over the log.** -/
theorem walkBackLoop_log (hfiled : dir.Filed disk) :
    ∀ (fuel : Nat) (seen : Finset OpId) (frontier : List OpId) (out result : List OperationRecord),
      dir.walkBackLoop disk limit fuel seen frontier out = some result →
      result = (dir.log disk).walkBackLoop limit fuel seen frontier out
  | 0, _, _, _, _, h => (some.inj h).symm
  | _ + 1, _, [], _, _, h => (some.inj h).symm
  | fuel + 1, seen, id :: frontier, out, result, h => by
    unfold walkBackLoop at h
    unfold OpLog.walkBackLoop
    by_cases hseen : id ∈ seen
    · rw [if_pos hseen] at h ⊢
      exact walkBackLoop_log hfiled fuel _ _ _ _ h
    · rw [if_neg hseen] at h ⊢
      cases hget : dir.get disk id with
      | none => simp [hget] at h
      | some found =>
        cases found with
        | none =>
          simp only [hget] at h
          simp only [get_log_eq_none hfiled hget]
          exact walkBackLoop_log hfiled fuel _ _ _ _ h
        | some record =>
          simp only [hget] at h
          simp only [(get_log hfiled).mpr hget]
          split at h
          · rename_i hlimit
            rw [if_pos hlimit]
            exact (some.inj h).symm
          · rename_i hlimit
            rw [if_neg hlimit]
            exact walkBackLoop_log hfiled fuel _ _ _ _ h

theorem walkBack_log (hfiled : dir.Filed disk) {head : OpId} (h : dir.walkBack disk head limit = some out) :
    out = (dir.log disk).walkBack head limit :=
  walkBackLoop_log hfiled _ _ _ _ _ h

/-- **The walk returns the records of the ancestors.** -/
theorem mem_walkBack_iff (hfiled : dir.Filed disk) {head : OpId} (h : dir.walkBack disk head none = some out) :
    record ∈ out ↔ dir.get disk record.opId = some (some record) ∧
      Graph.Reach (dir.parentsOf disk) head record.opId := by
  rw [walkBack_log hfiled h, OpLog.mem_walkBack_iff, get_log hfiled, ← parentsOf_log hfiled]

theorem nodup_walkBack (hfiled : dir.Filed disk) {head : OpId}
    (h : dir.walkBack disk head none = some out) : (out.map OperationRecord.opId).Nodup := by
  rw [walkBack_log hfiled h, OpLog.map_opId_walkBack]
  exact OpLog.nodup_backIds _ head

theorem exists_walkBackLoop (hread : ∀ id, dir.get disk id ≠ none) :
    ∀ (fuel : Nat) (seen : Finset OpId) (frontier : List OpId) (out : List OperationRecord),
      ∃ result, dir.walkBackLoop disk limit fuel seen frontier out = some result
  | 0, _, _, out => ⟨out, rfl⟩
  | _ + 1, _, [], out => ⟨out, rfl⟩
  | fuel + 1, seen, id :: frontier, out => by
    unfold walkBackLoop
    by_cases hseen : id ∈ seen
    · rw [if_pos hseen]
      exact exists_walkBackLoop hread fuel _ _ _
    · rw [if_neg hseen]
      cases hget : dir.get disk id with
      | none => exact absurd hget (hread id)
      | some found =>
        cases found with
        | none => exact exists_walkBackLoop hread fuel _ _ _
        | some record =>
          simp only
          split
          · exact ⟨_, rfl⟩
          · exact exists_walkBackLoop hread fuel _ _ _

theorem get_ne_none (hwhole : Whole digest disk dir) (id : OpId) : dir.get disk id ≠ none := by
  obtain ⟨found, hfound, -⟩ := get_spec hwhole id
  simp [hfound]

end Walk

/-! ## The listing -/

section ListAll

/-- A list of records as they are read, no id twice. -/
structure Read (disk : Disk) (dir : OpsDir) (out : List OperationRecord) : Prop where
  nodup : (out.map OperationRecord.opId).Nodup
  get : ∀ record ∈ out, dir.get disk record.opId = some (some record)

/-- One more record, of an id that is not there yet. -/
theorem Read.snoc (h : Read disk dir out) (hget : dir.get disk record.opId = some (some record))
    (hnew : record.opId ∉ out.map OperationRecord.opId) : Read disk dir (out ++ [record]) := by
  refine ⟨?_, fun r hr => ?_⟩
  · rw [map_append, nodup_append]
    refine ⟨h.nodup, nodup_singleton _, fun a ha b hb => ?_⟩
    obtain rfl := mem_singleton.mp hb
    exact fun heq => hnew (heq ▸ ha)
  · rcases mem_append.mp hr with hr | hr
    · exact h.get r hr
    · obtain rfl := mem_singleton.mp hr
      exact hget

/-- The id is among those taken. -/
abbrev Taken (out : List OperationRecord) (id : OpId) : Prop := id ∈ out.map OperationRecord.opId

/-- What one stretch of the listing makes of what was taken before. -/
structure Lists (disk : Disk) (dir : OpsDir) (out out' : List OperationRecord) : Prop where
  read : Read disk dir out'
  keeps : ∀ id, Taken out id → Taken out' id

theorem Lists.refl (h : Read disk dir out) : Lists disk dir out out := ⟨h, fun _ hid => hid⟩

theorem Lists.trans {mid out' : List OperationRecord} (h : Lists disk dir out mid)
    (h' : Lists disk dir mid out') : Lists disk dir out out' :=
  ⟨h'.read, fun id hid => h'.keeps id (h.keeps id hid)⟩

theorem Lists.snoc (h : Read disk dir out)
    (hget : dir.get disk record.opId = some (some record)) (hnew : ¬ Taken out record.opId) :
    Lists disk dir out (out ++ [record]) := by
  refine ⟨h.snoc hget hnew, fun id hid => ?_⟩
  rw [Taken, map_append]
  exact mem_append_left _ hid

theorem taken_snoc (out : List OperationRecord) (record : OperationRecord) : Taken (out ++ [record]) record.opId := by
  simp

theorem listLoose_lists (hfiled : dir.Filed disk) : ∀ (ids : List OpId)
    {out out' : List OperationRecord}, Read disk dir out →
    dir.listLoose disk ids out = some out' →
    Lists disk dir out out' ∧
      ∀ id ∈ ids, ∀ record, dir.get disk id = some (some record) → Taken out' id
  | [], out, out', h, hlist => by
    obtain rfl := some.inj hlist
    exact ⟨Lists.refl h, by simp⟩
  | id :: ids, out, out', h, hlist => by
    unfold listLoose at hlist
    cases hget : dir.get disk id with
    | none => simp [hget] at hlist
    | some found =>
      cases found with
      | none =>
        simp only [hget] at hlist
        obtain ⟨hlists, hall⟩ := listLoose_lists hfiled ids h hlist
        refine ⟨hlists, fun a ha record hrecord => ?_⟩
        rcases mem_cons.mp ha with rfl | ha
        · simp [hget] at hrecord
        · exact hall a ha record hrecord
      | some record =>
        simp only [hget] at hlist
        have hid := hfiled id record hget
        have hstep : Lists disk dir out (takeUnseen out record) ∧
            Taken (takeUnseen out record) id := by
          unfold takeUnseen
          by_cases hseen : record.opId ∈ out.map OperationRecord.opId
          · rw [if_pos hseen]
            exact ⟨Lists.refl h, hid ▸ hseen⟩
          · rw [if_neg hseen]
            exact ⟨Lists.snoc h (hid.symm ▸ hget) hseen, hid ▸ taken_snoc out record⟩
        obtain ⟨hlists, hall⟩ := listLoose_lists hfiled ids hstep.1.read hlist
        refine ⟨hstep.1.trans hlists, fun a ha r hr => ?_⟩
        rcases mem_cons.mp ha with rfl | ha
        · exact hlists.keeps a hstep.2
        · exact hall a ha r hr

/-- The entries of an index are listed as they are read, when an id that is not taken yet is read
from this pack. -/
theorem listEntries_lists (hfiled : dir.Filed disk) (hash : PackHash) :
    ∀ (entries : List (OpId × Nat)) {out out' : List OperationRecord}, Read disk dir out →
    (∀ entry ∈ entries, ¬ Taken out entry.1 →
      dir.get disk entry.1 = (dir.readPackedOp disk hash entry.2).map some) →
    dir.listEntries disk hash entries out = some out' →
    Lists disk dir out out' ∧ ∀ entry ∈ entries, Taken out' entry.1
  | [], out, out', h, _, hlist => by
    obtain rfl := some.inj hlist
    exact ⟨Lists.refl h, by simp⟩
  | (id, offset) :: entries, out, out', h, hhere, hlist => by
    unfold listEntries at hlist
    by_cases hseen : id ∈ out.map OperationRecord.opId
    · rw [if_pos hseen] at hlist
      obtain ⟨hlists, hall⟩ := listEntries_lists hfiled hash entries h
        (fun entry hentry => hhere entry (mem_cons_of_mem _ hentry)) hlist
      refine ⟨hlists, fun entry hentry => ?_⟩
      rcases mem_cons.mp hentry with rfl | hentry
      · exact hlists.keeps id hseen
      · exact hall entry hentry
    · rw [if_neg hseen] at hlist
      have hget := hhere (id, offset) mem_cons_self hseen
      cases hread : dir.readPackedOp disk hash offset with
      | none => simp [hread] at hlist
      | some record =>
        simp only [hread, map_some] at hlist hget
        obtain rfl := hfiled id record hget
        have hstep := Lists.snoc h hget hseen
        obtain ⟨hlists, hall⟩ := listEntries_lists hfiled hash entries hstep.read
          (fun entry hentry hnew => hhere entry (mem_cons_of_mem _ hentry)
            fun htaken => hnew (hstep.keeps _ htaken)) hlist
        refine ⟨hstep.trans hlists, fun entry hentry => ?_⟩
        rcases mem_cons.mp hentry with rfl | hentry
        · exact hlists.keeps _ (taken_snoc out record)
        · exact hall entry hentry

theorem scanPacks_append : ∀ {before after : List PackHash},
    (∀ hash ∈ before, ∃ index, dir.indices[hash]? = some index ∧ index[id]? = none) →
    dir.scanPacks disk id (before ++ after) = dir.scanPacks disk id after
  | [], _, _ => rfl
  | hash :: before, after, h => by
    obtain ⟨index, hindex, hentry⟩ := h hash mem_cons_self
    rw [cons_append, scanPacks]
    simp only [hindex, hentry]
    exact scanPacks_append fun hash' hmem => h hash' (mem_cons_of_mem _ hmem)

theorem get_eq_readPackedOp {before hashes : List PackHash} {hash : PackHash}
    {index : PackIndex} {offset : Nat} (hloose : dir.loose[id]? = none)
    (hlisted : disk.readPacks dir = before ++ hash :: hashes)
    (hbefore : ∀ hash ∈ before, ∃ index, dir.indices[hash]? = some index ∧ index[id]? = none)
    (hindex : dir.indices[hash]? = some index) (hoffset : index[id]? = some offset) :
    dir.get disk id = (dir.readPackedOp disk hash offset).map some := by
  unfold get
  simp only [hloose, hlisted]
  rw [scanPacks_append hbefore, scanPacks]
  simp only [hindex, hoffset]

/-- The packs are listed as they are read, when all loose records and all records of the packs before
are taken. -/
theorem listPacks_lists (hfiled : dir.Filed disk) : ∀ (before hashes : List PackHash)
    {out out' : List OperationRecord}, Read disk dir out →
    disk.readPacks dir = before ++ hashes →
    (∀ id record, dir.loose[id]? = some record → Taken out id) →
    (∀ hash ∈ before, ∃ index, dir.indices[hash]? = some index ∧
      ∀ id offset, index[id]? = some offset → Taken out id) →
    dir.listPacks disk hashes out = some out' →
    Lists disk dir out out' ∧ ∀ hash ∈ hashes, ∃ index, dir.indices[hash]? = some index ∧
      ∀ id offset, index[id]? = some offset → Taken out' id
  | _, [], out, out', h, _, _, _, hlist => by
    obtain rfl := some.inj hlist
    exact ⟨Lists.refl h, by simp⟩
  | before, hash :: hashes, out, out', h, hlisted, hloose, hbefore, hlist => by
    unfold listPacks at hlist
    cases hindex : dir.indices[hash]? with
    | none => simp [hindex] at hlist
    | some index =>
      simp only [hindex] at hlist
      cases hmid : dir.listEntries disk hash index.toList out with
      | none => simp [hmid] at hlist
      | some mid =>
        simp only [hmid] at hlist
        -- an id that is not taken is neither loose nor in a pack before this one
        have hhere : ∀ entry ∈ index.toList, ¬ Taken out entry.1 →
            dir.get disk entry.1 = (dir.readPackedOp disk hash entry.2).map some := by
          intro entry hentry hnew
          have hno : dir.loose[entry.1]? = none := by
            cases hl : dir.loose[entry.1]? with
            | none => rfl
            | some record => exact absurd (hloose _ _ hl) hnew
          have hoffset : index[entry.1]? = some entry.2 :=
            mem_toList_iff_getElem?_eq_some.mp hentry
          refine get_eq_readPackedOp hno hlisted (fun hash' hmem => ?_) hindex hoffset
          obtain ⟨index', hindex', hin⟩ := hbefore hash' hmem
          refine ⟨index', hindex', ?_⟩
          cases hentry' : index'[entry.1]? with
          | none => rfl
          | some offset => exact absurd (hin _ _ hentry') hnew
        obtain ⟨hstep, hall⟩ := listEntries_lists hfiled hash index.toList h hhere hmid
        have hthis : ∃ index, dir.indices[hash]? = some index ∧
            ∀ id offset, index[id]? = some offset → Taken mid id :=
          ⟨index, hindex, fun id offset hoffset => hall (id, offset)
            (mem_toList_iff_getElem?_eq_some.mpr hoffset)⟩
        obtain ⟨hlists, hrest⟩ := listPacks_lists hfiled (before ++ [hash]) hashes hstep.read
          (by rw [hlisted, append_assoc]; rfl)
          (fun id record hl => hstep.keeps id (hloose id record hl))
          (fun hash' hmem => by
            rcases mem_append.mp hmem with hmem | hmem
            · obtain ⟨index', hindex', hin⟩ := hbefore hash' hmem
              exact ⟨index', hindex', fun id offset ho => hstep.keeps id (hin id offset ho)⟩
            · obtain rfl := mem_singleton.mp hmem
              exact hthis) hlist
        refine ⟨hstep.trans hlists, fun hash' hmem => ?_⟩
        rcases mem_cons.mp hmem with rfl | hmem
        · obtain ⟨index', hindex', hin⟩ := hthis
          exact ⟨index', hindex', fun id offset ho => hlists.keeps id (hin id offset ho)⟩
        · exact hrest hash' hmem

theorem exists_index_of_scanPacks :
    ∀ {hashes : List PackHash}, dir.scanPacks disk id hashes = some (some record) →
      ∃ hash ∈ hashes, ∃ index offset, dir.indices[hash]? = some index ∧ index[id]? = some offset
  | [], h => by simp [scanPacks] at h
  | hash :: hashes, h => by
    unfold scanPacks at h
    cases hindex : dir.indices[hash]? with
    | none => simp [hindex] at h
    | some index =>
      cases hentry : index[id]? with
      | some offset => exact ⟨hash, mem_cons_self, index, offset, hindex, hentry⟩
      | none =>
        simp only [hindex, hentry] at h
        obtain ⟨hash', hmem, hfound⟩ := exists_index_of_scanPacks h
        exact ⟨hash', mem_cons_of_mem _ hmem, hfound⟩

/-- **A full listing that does not fail** has every record that can be read, each once. -/
theorem mem_listAll_iff (hfiled : dir.Filed disk) (h : dir.listAll disk = some out) :
    (out.map OperationRecord.opId).Nodup ∧ ∀ record, record ∈ out ↔
      dir.get disk record.opId = some (some record) := by
  unfold listAll at h
  cases hmid : dir.listLoose disk (disk.readLoose dir) [] with
  | none => simp [hmid] at h
  | some mid =>
    simp only [hmid] at h
    obtain ⟨hloose, htaken⟩ := listLoose_lists hfiled _ (⟨by simp, by simp⟩ : Read disk dir []) hmid
    have hget : ∀ id record, dir.loose[id]? = some record →
        dir.get disk id = some (some record) := by
      intro id record hl
      unfold get
      simp only [hl]
    have hall : ∀ id record, dir.loose[id]? = some record → Taken mid id := fun id record hl =>
      htaken id (mem_readLoose.mpr ⟨record, hl⟩) record (hget id record hl)
    obtain ⟨hlists, hpacks⟩ := listPacks_lists hfiled [] (disk.readPacks dir) hloose.read rfl hall
      (by simp) h
    refine ⟨hlists.read.nodup, fun record => ⟨hlists.read.get record, fun hrecord => ?_⟩⟩
    have hin : Taken out record.opId := by
      cases hl : dir.loose[record.opId]? with
      | some found => exact hlists.keeps _ (hall _ _ hl)
      | none =>
        have hscan := hrecord
        unfold get at hscan
        simp only [hl] at hscan
        obtain ⟨hash, hmem, index, offset, hindex, hentry⟩ := exists_index_of_scanPacks hscan
        obtain ⟨index', hindex', hin⟩ := hpacks hash hmem
        obtain rfl := some.inj (hindex.symm.trans hindex')
        exact hin _ _ hentry
    obtain ⟨found, hfound, hid⟩ := List.mem_map.mp hin
    have hsame := hlists.read.get found hfound
    rw [hid, hrecord] at hsame
    obtain rfl := some.inj (some.inj hsame)
    exact hfound

end ListAll

end OpsDir

end LexLang.Vcs
