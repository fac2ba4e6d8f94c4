/-
# LexLang.Vcs.Maintenance — what storage maintenance keeps of the log

Which records a directory holds (`Holds`) and when its files belong together (`Whole`): every index
has the body it was written for. On a whole directory `get` and `listAll` read what is held
(`get_spec`, `listAll_spec`). Every call, cut after any step, is judged by `Keeps`: the directory it
leaves is whole, holds nothing new, and still has every id but the victims'.

A put, a repack and each of their prefixes keep the log. An evict keeps it except while it rewrites
a pack: it removes the body and the index before the survivors' new pack is in place (`cutSafe`).
-/
import LexLang.Vcs.OpsDir

namespace LexLang.Vcs

open Function List Option Std.ExtTreeMap

namespace OpsDir

/-! ## Finite maps -/

section Maps

variable {α : Type} {m : Std.ExtTreeMap String α}

theorem getElem?_insert_eq (k : String) (v : α) (a : String) :
    (m.insert k v)[a]? = if k = a then some v else m[a]? := by
  rw [Std.ExtTreeMap.getElem?_insert]
  exact if_congr Std.LawfulEqCmp.compare_eq_iff_eq rfl rfl

theorem getElem?_erase_eq (k : String) (a : String) : (m.erase k)[a]? = if k = a then none else m[a]? := by
  rw [getElem?_erase]
  exact if_congr Std.LawfulEqCmp.compare_eq_iff_eq rfl rfl

theorem mem_keys_iff {k : String} : k ∈ m.keys ↔ ∃ v, m[k]? = some v := by
  rw [Std.ExtTreeMap.mem_keys, ← isSome_getElem?_iff_mem, isSome_iff_exists]

end Maps

/-! ## Frames and offsets -/

section Frames

variable (disk : Disk)

theorem readFrame_behind (first : OperationRecord) (frames : List OperationRecord) (d : Nat) :
    readFrame disk (first :: frames) (8 + disk.size first + d) = readFrame disk frames d := by
  have hpos : 8 + disk.size first + d = (7 + disk.size first + d) + 1 := by omega
  rw [hpos]
  show (if 8 + disk.size first ≤ (7 + disk.size first + d) + 1 then
    readFrame disk frames ((7 + disk.size first + d) + 1 - (8 + disk.size first)) else none) = _
  rw [if_pos (by omega)]
  congr 1
  omega

/-- An index finds the frame of every record it was written with. -/
theorem offsets_spec : ∀ (ops : List (OpId × OperationRecord)) (cursor : Nat) (index : PackIndex),
    (ops.map Prod.fst).Nodup →
    (∀ id record, (id, record) ∈ ops → ∃ d, (offsets disk ops cursor index)[id]? = some (cursor + d) ∧
      readFrame disk (ops.map Prod.snd) d = some record) ∧
      ∀ id, id ∉ ops.map Prod.fst → (offsets disk ops cursor index)[id]? = index[id]?
  | [], _, _, _ => ⟨by simp, fun _ _ => rfl⟩
  | (a, first) :: ops, cursor, index, hnd => by
    rw [map_cons, nodup_cons] at hnd
    obtain ⟨hin, hout⟩ := offsets_spec ops (cursor + (8 + disk.size first)) (index.insert a cursor)
      hnd.2
    constructor
    · intro id record hmem
      unfold offsets
      rcases mem_cons.mp hmem with heq | hmem
      · obtain ⟨rfl, rfl⟩ := Prod.mk.inj heq
        refine ⟨0, ?_, rfl⟩
        rw [hout _ hnd.1, getElem?_insert_eq, if_pos rfl]
        rfl
      · obtain ⟨d, hd, hread⟩ := hin id record hmem
        refine ⟨8 + disk.size first + d, ?_, ?_⟩
        · rw [hd]
          congr 1
          omega
        · rw [map_cons, readFrame_behind, hread]
    · intro id hid
      rw [map_cons, mem_cons, not_or] at hid
      unfold offsets
      rw [hout id hid.2, getElem?_insert_eq, if_neg (Ne.symm hid.1)]

end Frames

/-! ## What a directory holds -/

variable {hash : PackHash} {index : PackIndex} {id : OpId} {record : OperationRecord}

section Holds

variable (digest : Digest) (disk : Disk)

/-- A body and an index that belong together, under the name their ids give. -/
structure IsPack (hash : PackHash) (frames : List OperationRecord) (index : PackIndex) : Prop where
  sorted : (frames.map OperationRecord.opId).Pairwise (· < ·)
  named : hash = packHash digest (frames.map OperationRecord.opId)
  indexed : index =
    offsets disk (frames.map fun record : OperationRecord => (record.opId, record)) 0 ∅

/-- **The files belong together**: a loose file is named by its record, and every index has its
body. A body without an index is left over from a cut, and is never read. -/
structure Whole (dir : OpsDir) : Prop where
  loose : ∀ (id : OpId) (record : OperationRecord), dir.loose[id]? = some record → record.opId = id
  packs : ∀ (hash : PackHash) (index : PackIndex), dir.indices[hash]? = some index →
    ∃ frames, dir.packs[hash]? = some frames ∧ IsPack digest disk hash frames index

variable {digest disk}

/-- A record is in a pack that has its index. -/
def PackedIn (dir : OpsDir) (hash : PackHash) (record : OperationRecord) : Prop :=
  (∃ index, dir.indices[hash]? = some index) ∧
    ∃ frames, dir.packs[hash]? = some frames ∧ record ∈ frames

/-- **The directory holds a record under an id**, loose or packed. -/
def Holds (dir : OpsDir) (id : OpId) (record : OperationRecord) : Prop :=
  record.opId = id ∧ (dir.loose[id]? = some record ∨ ∃ hash, dir.PackedIn hash record)

variable {frames : List OperationRecord}

theorem IsPack.nodup (h : IsPack digest disk hash frames index) : (frames.map OperationRecord.opId).Nodup :=
  h.sorted.imp ne_of_lt

/-- An index entry leads to a record of its id. -/
theorem IsPack.read_of_entry (h : IsPack digest disk hash frames index) {offset : Nat}
    (hentry : index[id]? = some offset) :
    ∃ record ∈ frames, record.opId = id ∧ readFrame disk frames offset = some record := by
  let ops := frames.map fun record : OperationRecord => (record.opId, record)
  have hfst : ops.map Prod.fst = frames.map OperationRecord.opId := by simp [ops]
  have hsnd : ops.map Prod.snd = frames := by simp [ops, comp_def]
  obtain ⟨hin, hout⟩ := offsets_spec disk ops 0 ∅ (hfst ▸ h.nodup)
  rw [h.indexed] at hentry
  by_cases hid : id ∈ frames.map OperationRecord.opId
  · obtain ⟨record, hrecord, rfl⟩ := List.mem_map.mp hid
    obtain ⟨d, hd, hread⟩ := hin record.opId record (List.mem_map.mpr ⟨record, hrecord, rfl⟩)
    rw [hd, Nat.zero_add] at hentry
    obtain rfl := some.inj hentry
    exact ⟨record, hrecord, rfl, by rw [← hread, hsnd]⟩
  · rw [hout id (hfst ▸ hid)] at hentry
    simp at hentry

/-- A record without an index entry is not in the body. -/
theorem IsPack.entry_of_mem (h : IsPack digest disk hash frames index) (hmem : record ∈ frames) :
    ∃ offset, index[record.opId]? = some offset ∧ readFrame disk frames offset = some record := by
  let ops := frames.map fun record : OperationRecord => (record.opId, record)
  have hfst : ops.map Prod.fst = frames.map OperationRecord.opId := by simp [ops]
  have hsnd : ops.map Prod.snd = frames := by simp [ops, comp_def]
  obtain ⟨d, hd, hread⟩ := (offsets_spec disk ops 0 ∅ (hfst ▸ h.nodup)).1 record.opId record
    (List.mem_map.mpr ⟨record, hmem, rfl⟩)
  refine ⟨d, ?_, by rw [← hread, hsnd]⟩
  rw [h.indexed, hd, Nat.zero_add]

variable {dir : OpsDir}

/-- The scan reads a record of the id from one of the packs listed, or there is none in any. -/
theorem scanPacks_spec (hwhole : Whole digest disk dir) (id : OpId) : ∀ (hashes : List PackHash),
    (∀ hash ∈ hashes, ∃ index, dir.indices[hash]? = some index) →
    ∃ found, dir.scanPacks disk id hashes = some found ∧
      (∀ record, found = some record → record.opId = id ∧ ∃ hash, dir.PackedIn hash record) ∧
      (found = none → ∀ hash ∈ hashes, ∀ record, dir.PackedIn hash record → record.opId ≠ id)
  | [], _ => ⟨none, rfl, by simp, by simp⟩
  | hash :: hashes, hlisted => by
    obtain ⟨index, hindex⟩ := hlisted hash mem_cons_self
    obtain ⟨frames, hframes, hpack⟩ := hwhole.packs hash index hindex
    unfold scanPacks
    simp only [hindex]
    cases hentry : index[id]? with
    | some offset =>
      obtain ⟨record, hrecord, hid, hread⟩ := hpack.read_of_entry hentry
      refine ⟨some record, ?_, ?_, by simp⟩
      · simp [readPackedOp, hframes, hread]
      · intro record' h
        obtain rfl := some.inj h
        exact ⟨hid, hash, ⟨index, hindex⟩, frames, hframes, hrecord⟩
    | none =>
      obtain ⟨found, hscan, hfound, hnone⟩ := scanPacks_spec hwhole id hashes
        fun hash hmem => hlisted hash (mem_cons_of_mem _ hmem)
      refine ⟨found, hscan, hfound, fun h hash' hmem record hpacked hid => ?_⟩
      rcases mem_cons.mp hmem with rfl | hmem
      · obtain ⟨_, frames', hframes', hrecord⟩ := hpacked
        obtain rfl := some.inj (hframes.symm.trans hframes')
        obtain ⟨offset, hoffset, _⟩ := hpack.entry_of_mem hrecord
        rw [hid, hentry] at hoffset
        cases hoffset
      · exact hnone h hash' hmem record hpacked hid

theorem mem_readPacks : hash ∈ disk.readPacks dir ↔ ∃ index, dir.indices[hash]? = some index := by
  rw [(disk.readPacks_perm dir).mem_iff, mem_keys_iff]

theorem mem_readLoose : id ∈ disk.readLoose dir ↔ ∃ record, dir.loose[id]? = some record := by
  rw [(disk.readLoose_perm dir).mem_iff, mem_keys_iff]

/-- **A whole directory is read without error**: `get` returns a record held under the id, if there
is one. -/
theorem get_spec (hwhole : Whole digest disk dir) (id : OpId) :
    ∃ found, dir.get disk id = some found ∧ (∀ record, found = some record → dir.Holds id record) ∧
      (found = none → ∀ record, ¬ dir.Holds id record) := by
  unfold get
  cases hloose : dir.loose[id]? with
  | some record =>
    refine ⟨some record, rfl, ?_, by simp⟩
    intro record' h
    obtain rfl := some.inj h
    exact ⟨hwhole.loose id _ hloose, .inl hloose⟩
  | none =>
    obtain ⟨found, hscan, hfound, hnone⟩ := scanPacks_spec hwhole id (disk.readPacks dir)
      fun hash hmem => mem_readPacks.mp hmem
    refine ⟨found, hscan, fun record h => ⟨(hfound record h).1, .inr (hfound record h).2⟩, ?_⟩
    rintro h record ⟨hid, hl | ⟨hash, hpacked⟩⟩
    · rw [hloose] at hl
      cases hl
    · exact hnone h hash (mem_readPacks.mpr hpacked.1) record hpacked hid

/-- Whatever the directory holds under one id is one record. -/
def Agree (dir : OpsDir) : Prop :=
  ∀ id record record', dir.Holds id record → dir.Holds id record' → record = record'

theorem get_eq_some_iff (hwhole : Whole digest disk dir) (hagree : dir.Agree) : dir.get disk id = some (some record) ↔ dir.Holds id record := by
  obtain ⟨found, hget, hsome, hnone⟩ := get_spec hwhole id
  rw [hget, some.injEq]
  refine ⟨hsome record, fun h => ?_⟩
  cases found with
  | none => exact absurd h (hnone rfl record)
  | some record' => rw [hagree id record' record (hsome record' rfl) h]

theorem get_eq_none_iff (hwhole : Whole digest disk dir) :
    dir.get disk id = some none ↔ ∀ record, ¬ dir.Holds id record := by
  obtain ⟨found, hget, hsome, hnone⟩ := get_spec hwhole id
  rw [hget, some.injEq]
  refine ⟨hnone, fun h => ?_⟩
  cases found with
  | none => rfl
  | some record => exact absurd (hsome record rfl) (h record)

end Holds

/-! ## What a call keeps -/

section Keeps

variable (digest : Digest) (disk : Disk)

/-- **Nothing but the victims is lost, and nothing appears**: the second directory is whole, holds
only what the first one holds, and still has every id the first one has, victims excepted. -/
structure Keeps (victims : Finset OpId) (dir dir' : OpsDir) : Prop where
  whole : Whole digest disk dir'
  noNew : ∀ id record, dir'.Holds id record → dir.Holds id record
  ids : ∀ id ∉ victims, ∀ record, dir.Holds id record → ∃ record', dir'.Holds id record'

variable {digest disk} {victims : Finset OpId} {dir dir' dir'' : OpsDir}

namespace Keeps

theorem refl (hwhole : Whole digest disk dir) : Keeps digest disk victims dir dir :=
  ⟨hwhole, fun _ _ h => h, fun _ _ record h => ⟨record, h⟩⟩

variable (h : Keeps digest disk victims dir dir')
include h

theorem trans (h' : Keeps digest disk victims dir' dir'') : Keeps digest disk victims dir dir'' := by
  refine ⟨h'.whole, fun id record hr => h.noNew id record (h'.noNew id record hr),
    fun id hid record hr => ?_⟩
  obtain ⟨record', hr'⟩ := h.ids id hid record hr
  exact h'.ids id hid record' hr'

/-- Where one id stands for one record, what is kept is kept as it was. -/
theorem holds (hagree : dir.Agree) (hid : id ∉ victims) : dir'.Holds id record ↔ dir.Holds id record := by
  refine ⟨h.noNew id record, fun hr => ?_⟩
  obtain ⟨record', hr'⟩ := h.ids id hid record hr
  rwa [hagree id record record' hr (h.noNew id record' hr')]

theorem agree (hagree : dir.Agree) : dir'.Agree :=
  fun id record record' hr hr' =>
    hagree id record record' (h.noNew id record hr) (h.noNew id record' hr')

end Keeps

/-! ### Removing loose files -/

theorem applyAll_removeLoose : ∀ (ids : List OpId) (dir : OpsDir),
    (dir.applyAll (ids.map .removeLoose)).indices = dir.indices ∧
      (dir.applyAll (ids.map .removeLoose)).packs = dir.packs ∧
      ∀ id : OpId, (dir.applyAll (ids.map .removeLoose)).loose[id]? =
        if id ∈ ids then none else dir.loose[id]?
  | [], dir => ⟨rfl, rfl, by simp [applyAll]⟩
  | a :: ids, dir => by
    obtain ⟨hindices, hpacks, hloose⟩ := applyAll_removeLoose ids (dir.apply (.removeLoose a))
    refine ⟨hindices, hpacks, fun id => ?_⟩
    show ((dir.apply (.removeLoose a)).applyAll (ids.map .removeLoose)).loose[id]? = _
    rw [hloose]
    show (if id ∈ ids then none else (dir.loose.erase a)[id]?) = _
    rw [getElem?_erase_eq]
    by_cases hid : id ∈ ids
    · simp [hid]
    · by_cases ha : a = id
      · simp [ha]
      · simp [hid, ha, Ne.symm ha]

/-- **Removing loose files of victims, or of ids that are packed too, keeps the log.** -/
theorem keeps_removeLoose (hwhole : Whole digest disk dir) {ids : List OpId}
    (hids : ∀ id ∈ ids, id ∉ victims → ∃ hash record, dir.PackedIn hash record ∧ record.opId = id) :
    Keeps digest disk victims dir (dir.applyAll (ids.map .removeLoose)) := by
  obtain ⟨hindices, hpacks, hloose⟩ := applyAll_removeLoose ids dir
  have hpacked : ∀ hash record, (dir.applyAll (ids.map .removeLoose)).PackedIn hash record ↔
      dir.PackedIn hash record := by
    intro hash record
    unfold PackedIn
    rw [hindices, hpacks]
  have hsub : ∀ {id : OpId} {record : OperationRecord},
      (dir.applyAll (ids.map .removeLoose)).loose[id]? = some record →
        dir.loose[id]? = some record := by
    intro id record h
    rw [hloose] at h
    split at h
    · cases h
    · exact h
  refine ⟨⟨fun id record h => hwhole.loose id record (hsub h), ?_⟩, ?_, ?_⟩
  · rw [hindices, hpacks]
    exact hwhole.packs
  · rintro id record ⟨hid, hl | ⟨hash, hp⟩⟩
    · exact ⟨hid, .inl (hsub hl)⟩
    · exact ⟨hid, .inr ⟨hash, (hpacked hash record).mp hp⟩⟩
  · rintro id hvictim record ⟨hid, hl | ⟨hash, hp⟩⟩
    · by_cases hmem : id ∈ ids
      · obtain ⟨hash, record', hp, hid'⟩ := hids id hmem hvictim
        exact ⟨record', hid', .inr ⟨hash, (hpacked hash record').mpr hp⟩⟩
      · refine ⟨record, hid, .inl ?_⟩
        rw [hloose, if_neg hmem]
        exact hl
    · exact ⟨record, hid, .inr ⟨hash, (hpacked hash record).mpr hp⟩⟩

/-! ### Writing a pack -/

/-- Records filed under their own ids, each id once. -/
structure Keyed (ops : List (OpId × OperationRecord)) : Prop where
  keyed : ∀ id record, (id, record) ∈ ops → record.opId = id
  nodup : (ops.map Prod.fst).Nodup

variable {ops : List (OpId × OperationRecord)}

theorem mem_sortOps {op : OpId × OperationRecord} : op ∈ sortOps ops ↔ op ∈ ops := by
  unfold sortOps
  rw [mem_insertionSort]

theorem isPack_of_keyed (digest : Digest) (disk : Disk) (hops : Keyed ops) :
    IsPack digest disk (packHash digest ((sortOps ops).map Prod.fst)) ((sortOps ops).map Prod.snd)
      (offsets disk (sortOps ops) 0 ∅) := by
  have hids : ((sortOps ops).map Prod.snd).map OperationRecord.opId = (sortOps ops).map Prod.fst := by
    rw [List.map_map]
    refine map_congr_left fun op hop => ?_
    exact hops.keyed op.1 op.2 (mem_sortOps.mp hop)
  have hpairs : ((sortOps ops).map Prod.snd).map
      (fun record : OperationRecord => (record.opId, record)) = sortOps ops := by
    rw [List.map_map]
    refine (map_congr_left fun op hop => ?_).trans (List.map_id _)
    exact Prod.ext (hops.keyed op.1 op.2 (mem_sortOps.mp hop)) rfl
  refine ⟨?_, by rw [hids], by rw [hpairs]⟩
  rw [hids]
  have hperm : (sortOps ops).Perm ops := perm_insertionSort _ _
  have hsorted : (sortOps ops).Pairwise fun a b => a.1 ≤ b.1 := by
    have : Std.Total fun a b : OpId × OperationRecord => a.1 ≤ b.1 := ⟨fun a b => le_total a.1 b.1⟩
    have : IsTrans (OpId × OperationRecord) fun a b => a.1 ≤ b.1 := ⟨fun _ _ _ => le_trans⟩
    exact pairwise_insertionSort _ ops
  have hle : ((sortOps ops).map Prod.fst).Pairwise (· ≤ ·) := pairwise_map.mpr hsorted
  have hnd : ((sortOps ops).map Prod.fst).Nodup := (hperm.map _).nodup_iff.mpr hops.nodup
  exact (hle.and hnd).imp fun h => lt_of_le_of_ne h.1 h.2

/-- The four steps that write a pack, cut anywhere: until the index is in place nothing is packed
that was not. -/
theorem applyAll_writePack (dir : OpsDir) (hash : PackHash) (frames : List OperationRecord)
    (index : PackIndex) (k : Nat) :
    let dir' := dir.applyAll (([.createPackTmp hash frames, .createIndexTmp hash index,
      .renamePack hash, .renameIndex hash] : List FsStep).take k)
    dir'.loose = dir.loose ∧
      dir'.packs = (if k < 3 then dir.packs else dir.packs.insert hash frames) ∧
      dir'.indices = if k < 4 then dir.indices else dir.indices.insert hash index := by
  match k with
  | 0 | 1 | 2 => exact ⟨rfl, rfl, rfl⟩
  | 3 => simp [applyAll, apply]
  | k + 4 => simp [applyAll, apply]

/-- What writing a pack changes: the loose files stay, what was packed stays packed, and whatever
else is packed now was to be written. -/
structure Writes (digest : Digest) (disk : Disk) (dir dir' : OpsDir) (ops : List (OpId × OperationRecord)) : Prop where
  whole : Whole digest disk dir'
  loose : dir'.loose = dir.loose
  listed : ∀ (hash : PackHash) (index : PackIndex), dir.indices[hash]? = some index →
    dir'.indices[hash]? = some index
  old : ∀ hash record, dir.PackedIn hash record → dir'.PackedIn hash record
  new : ∀ hash record, dir'.PackedIn hash record →
    dir.PackedIn hash record ∨ (record.opId, record) ∈ ops

/-- **Writing a pack, cut anywhere.** -/
theorem packSteps_take (hwhole : Whole digest disk dir) (hops : Keyed ops) (k : Nat) : Writes digest disk dir
      (dir.applyAll ((dir.packSteps digest disk ops).take k)) ops := by
  unfold packSteps
  simp only
  split
  · rw [take_nil]
    exact ⟨hwhole, rfl, fun _ _ h => h, fun _ _ h => h, fun _ _ h => .inl h⟩
  · rename_i hboth
    obtain ⟨hloose, hpacks, hindices⟩ := applyAll_writePack dir
      (packHash digest ((sortOps ops).map Prod.fst)) ((sortOps ops).map Prod.snd)
      (offsets disk (sortOps ops) 0 ∅) k
    have hpack := isPack_of_keyed digest disk hops
    revert hloose hpacks hindices hboth hpack
    generalize packHash digest ((sortOps ops).map Prod.fst) = hash
    generalize hframes : (sortOps ops).map Prod.snd = frames
    generalize offsets disk (sortOps ops) 0 ∅ = index
    generalize dir.applyAll _ = dir'
    intro hboth hloose hpacks hindices hpack
    -- the name is free, since an index would have its body
    have hfree : dir.indices[hash]? = none := by
      cases hindex : dir.indices[hash]? with
      | none => rfl
      | some index =>
        obtain ⟨frames, hframes, _⟩ := hwhole.packs hash index hindex
        exact absurd ⟨by simp [hframes], by simp [hindex]⟩ hboth
    have hnew : ∀ record ∈ frames, (record.opId, record) ∈ ops := by
      intro record hrecord
      rw [← hframes, List.mem_map] at hrecord
      obtain ⟨⟨id, _⟩, hmem, rfl⟩ := hrecord
      have hop := mem_sortOps.mp hmem
      rwa [hops.keyed id _ hop]
    have hpacks' : ∀ h : PackHash, dir'.packs[h]? =
        if 3 ≤ k ∧ h = hash then some frames else dir.packs[h]? := by
      intro h
      rw [hpacks]
      split
      · rw [if_neg (by omega)]
      · rw [getElem?_insert_eq]
        exact if_congr ⟨fun h => ⟨by omega, h.symm⟩, fun h => h.2.symm⟩ rfl rfl
    have hindices' : ∀ h : PackHash, dir'.indices[h]? =
        if 4 ≤ k ∧ h = hash then some index else dir.indices[h]? := by
      intro h
      rw [hindices]
      split
      · rw [if_neg (by omega)]
      · rw [getElem?_insert_eq]
        exact if_congr ⟨fun h => ⟨by omega, h.symm⟩, fun h => h.2.symm⟩ rfl rfl
    have hother : ∀ (h : PackHash) (index : PackIndex), dir.indices[h]? = some index →
        dir'.indices[h]? = some index ∧ dir'.packs[h]? = dir.packs[h]? := by
      intro h index hindex
      have hne : h ≠ hash := by
        rintro rfl
        rw [hfree] at hindex
        cases hindex
      rw [hindices', hpacks', if_neg (by simp [hne]), if_neg (by simp [hne])]
      exact ⟨hindex, rfl⟩
    refine ⟨⟨by rw [hloose]; exact hwhole.loose, fun h idx hidx => ?_⟩, hloose,
      fun h idx hidx => (hother h idx hidx).1, ?_, ?_⟩
    · rw [hindices'] at hidx
      split at hidx
      · rename_i hk
        obtain ⟨hk, rfl⟩ := hk
        obtain rfl := some.inj hidx
        exact ⟨frames, by rw [hpacks', if_pos ⟨by omega, rfl⟩], hpack⟩
      · rw [(hother h idx hidx).2]
        exact hwhole.packs h idx hidx
    · rintro h record ⟨⟨idx, hidx⟩, hrecord⟩
      exact ⟨⟨idx, (hother h idx hidx).1⟩, by rw [(hother h idx hidx).2]; exact hrecord⟩
    · rintro h record ⟨⟨idx, hidx⟩, fs, hfs, hrecord⟩
      rw [hindices'] at hidx
      split at hidx
      · rename_i hk
        obtain ⟨hk, rfl⟩ := hk
        rw [hpacks', if_pos ⟨by omega, rfl⟩] at hfs
        obtain rfl := some.inj hfs
        exact .inr (hnew record hrecord)
      · rw [(hother h idx hidx).2] at hfs
        exact .inl ⟨⟨idx, hidx⟩, fs, hfs, hrecord⟩

/-- **Written to the end, every id is packed**: by the new pack, or by the one that has its name. -/
theorem packSteps_all (hwhole : Whole digest disk dir) (hops : Keyed ops) (hid : id ∈ ops.map Prod.fst) :
    ∃ hash record, (dir.applyAll (dir.packSteps digest disk ops)).PackedIn hash record ∧ record.opId = id := by
  have hpack := isPack_of_keyed digest disk hops
  have hmem : id ∈ (sortOps ops).map Prod.fst := by
    obtain ⟨op, hop, rfl⟩ := List.mem_map.mp hid
    exact List.mem_map_of_mem (mem_sortOps.mpr hop)
  unfold packSteps
  simp only
  split
  · rename_i hboth
    obtain ⟨frames', hframes'⟩ := isSome_iff_exists.mp hboth.1
    obtain ⟨index', hindex'⟩ := isSome_iff_exists.mp hboth.2
    obtain ⟨frames, hframes, hpack'⟩ := hwhole.packs _ index' hindex'
    -- one name, one list of ids
    have hids : (sortOps ops).map Prod.fst = frames.map OperationRecord.opId := by
      have := digest.injective hpack'.named
      simpa using this
    rw [hids, List.mem_map] at hmem
    obtain ⟨record, hrecord, hid⟩ := hmem
    exact ⟨_, record, ⟨⟨index', hindex'⟩, frames, hframes, hrecord⟩, hid⟩
  · obtain ⟨_, hpacks, hindices⟩ := applyAll_writePack dir
      (packHash digest ((sortOps ops).map Prod.fst)) ((sortOps ops).map Prod.snd)
      (offsets disk (sortOps ops) 0 ∅) 4
    obtain ⟨⟨_, record⟩, hop, rfl⟩ := List.mem_map.mp hmem
    refine ⟨packHash digest ((sortOps ops).map Prod.fst), record,
      ⟨⟨offsets disk (sortOps ops) 0 ∅, ?_⟩, (sortOps ops).map Prod.snd, ?_, List.mem_map_of_mem hop⟩,
      hops.keyed _ _ (mem_sortOps.mp hop)⟩
    · refine (congrArg (·[packHash digest ((sortOps ops).map Prod.fst)]?) hindices).trans ?_
      rw [if_neg (by omega), getElem?_insert_eq, if_pos rfl]
    · refine (congrArg (·[packHash digest ((sortOps ops).map Prod.fst)]?) hpacks).trans ?_
      rw [if_neg (by omega), getElem?_insert_eq, if_pos rfl]

/-! ### A repack -/

theorem applyAll_append (dir : OpsDir) (steps steps' : List FsStep) :
    dir.applyAll (steps ++ steps') = (dir.applyAll steps).applyAll steps' :=
  foldl_append

/-- Writing records the directory holds already keeps the log. -/
theorem Writes.keeps (h : Writes digest disk dir dir' ops)
    (hops : ∀ record, (record.opId, record) ∈ ops → dir.Holds record.opId record) :
    Keeps digest disk victims dir dir' := by
  refine ⟨h.whole, ?_, ?_⟩
  · rintro id record ⟨rfl, hl | ⟨hash, hp⟩⟩
    · exact ⟨rfl, .inl (h.loose ▸ hl)⟩
    · rcases h.new hash record hp with hold | hop
      · exact ⟨rfl, .inr ⟨hash, hold⟩⟩
      · exact hops record hop
  · rintro id _ record ⟨hid, hl | ⟨hash, hp⟩⟩
    · exact ⟨record, hid, .inl (h.loose.symm ▸ hl)⟩
    · exact ⟨record, hid, .inr ⟨hash, h.old hash record hp⟩⟩

theorem mem_looseOps : (id, record) ∈ dir.looseOps disk ↔ dir.loose[id]? = some record := by
  unfold looseOps
  rw [List.mem_filterMap]
  constructor
  · rintro ⟨id', _, h⟩
    obtain ⟨record', hrecord, heq⟩ := map_eq_some_iff.mp h
    obtain ⟨rfl, rfl⟩ := Prod.mk.inj heq
    exact hrecord
  · intro h
    exact ⟨id, mem_readLoose.mpr ⟨record, h⟩, by rw [h]; rfl⟩

theorem map_fst_looseOps : (dir.looseOps disk).map Prod.fst = disk.readLoose dir := by
  have hall : ∀ id ∈ disk.readLoose dir, ∃ record, dir.loose[id]? = some record :=
    fun id hid => mem_readLoose.mp hid
  unfold looseOps
  generalize disk.readLoose dir = ids at hall
  induction ids with
  | nil => rfl
  | cons id ids ih =>
    obtain ⟨record, hrecord⟩ := hall id mem_cons_self
    rw [filterMap_cons]
    simp only [hrecord, map_some, map_cons]
    rw [ih fun id hid => hall id (mem_cons_of_mem _ hid)]

theorem keyed_looseOps (hwhole : Whole digest disk dir) : Keyed (dir.looseOps disk) where
  keyed := fun id record h => hwhole.loose id record (mem_looseOps.mp h)
  nodup := by
    rw [map_fst_looseOps, (disk.readLoose_perm dir).nodup_iff]
    exact nodup_keys

/-- **A repack, cut anywhere, keeps the log.** -/
theorem keeps_repack (hwhole : Whole digest disk dir) (threshold k : Nat) : Keeps digest disk victims dir
      (dir.applyAll ((dir.repackSteps digest disk threshold).take k)) := by
  unfold repackSteps
  split
  · rw [take_nil]
    exact Keeps.refl hwhole
  · have hwrites := packSteps_take hwhole (keyed_looseOps hwhole) k
    have hkeeps : Keeps digest disk victims dir
        (dir.applyAll ((dir.packSteps digest disk (dir.looseOps disk)).take k)) :=
      hwrites.keeps fun record h => ⟨rfl, .inl (mem_looseOps.mp h)⟩
    rw [take_append, applyAll_append, ← map_take]
    refine hkeeps.trans (keeps_removeLoose hkeeps.whole fun id hid _ => ?_)
    -- a loose file goes only once the pack is written to the end
    have hlong : (dir.packSteps digest disk (dir.looseOps disk)).length ≤ k := by
      by_contra hlt
      have : k - (dir.packSteps digest disk (dir.looseOps disk)).length = 0 := by omega
      rw [this] at hid
      cases hid
    rw [take_of_length_le hlong]
    apply packSteps_all hwhole (keyed_looseOps hwhole)
    rw [map_fst_looseOps]
    exact mem_of_mem_take hid

/-! ### An evict -/

/-- Removing the victims' loose files, cut anywhere, keeps the log. -/
theorem keeps_evictLoose (victims : Finset OpId) (hwhole : Whole digest disk dir) (k : Nat) :
    Keeps digest disk victims dir (dir.applyAll ((dir.evictLoose disk victims).take k)) := by
  unfold evictLoose
  rw [← map_take]
  refine keeps_removeLoose hwhole fun id hid hno => ?_
  have := (List.mem_filter.mp (mem_of_mem_take hid)).2
  exact absurd (of_decide_eq_true this) hno

/-- Reading the records that are to stay finds exactly those. -/
theorem survivors_spec (victims : Finset OpId) (hwhole : Whole digest disk dir)
    (hindex : dir.indices[hash]? = some index) : ∀ (entries : List (OpId × Nat)),
    (∀ entry ∈ entries, index[entry.1]? = some entry.2) →
    ∃ ops, dir.survivors disk victims hash entries = some ops ∧
      (∀ id record, (id, record) ∈ ops →
        id ∉ victims ∧ record.opId = id ∧ dir.PackedIn hash record) ∧
      (∀ entry ∈ entries, entry.1 ∉ victims → entry.1 ∈ ops.map Prod.fst) ∧
      (ops.map Prod.fst).Sublist (entries.map Prod.fst)
  | [], _ => ⟨[], rfl, by simp, by simp, Sublist.refl _⟩
  | (id, offset) :: entries, hentries => by
    obtain ⟨ops, hops, hmem, hall, hsub⟩ := survivors_spec victims hwhole hindex entries
      fun entry h => hentries entry (mem_cons_of_mem _ h)
    obtain ⟨frames, hframes, hpack⟩ := hwhole.packs hash index hindex
    obtain ⟨record, hrecord, hid, hread⟩ :=
      hpack.read_of_entry (hentries (id, offset) mem_cons_self)
    unfold survivors
    by_cases hvictim : id ∈ victims
    · rw [if_pos hvictim]
      refine ⟨ops, hops, hmem, fun entry hentry hno => ?_, hsub.trans (sublist_cons_self _ _)⟩
      rcases mem_cons.mp hentry with rfl | hentry
      · exact absurd hvictim hno
      · exact hall entry hentry hno
    · rw [if_neg hvictim, hops]
      refine ⟨(id, record) :: ops, by simp [readPackedOp, hframes, hread], ?_, ?_, hsub.cons_cons _⟩
      · intro id' record' h
        rcases mem_cons.mp h with heq | h
        · obtain ⟨rfl, rfl⟩ := Prod.mk.inj heq
          exact ⟨hvictim, hid, ⟨index, hindex⟩, frames, hframes, hrecord⟩
        · exact hmem id' record' h
      · intro entry hentry hno
        rcases mem_cons.mp hentry with rfl | hentry
        · exact mem_cons_self
        · exact mem_cons_of_mem _ (hall entry hentry hno)

/-- The directory without one pack. -/
def dropPack (dir : OpsDir) (hash : PackHash) : OpsDir :=
  dir.applyAll [.removePack hash, .removeIndex hash]

theorem packedIn_dropPack {hash' : PackHash} :
    (dir.dropPack hash).PackedIn hash' record ↔ hash' ≠ hash ∧ dir.PackedIn hash' record := by
  show (∃ index, (dir.indices.erase hash)[hash']? = some index) ∧
    (∃ frames, (dir.packs.erase hash)[hash']? = some frames ∧ record ∈ frames) ↔ _
  rw [getElem?_erase_eq, getElem?_erase_eq]
  by_cases h : hash = hash'
  · simp [h]
  · simp [h, Ne.symm h, PackedIn]

theorem whole_dropPack (hwhole : Whole digest disk dir) (hash : PackHash) :
    Whole digest disk (dir.dropPack hash) := by
  refine ⟨hwhole.loose, fun hash' index hindex => ?_⟩
  have hindex : (dir.indices.erase hash)[hash']? = some index := hindex
  show ∃ frames, (dir.packs.erase hash)[hash']? = some frames ∧ _
  rw [getElem?_erase_eq] at hindex ⊢
  split at hindex
  · cases hindex
  · rename_i hne
    rw [if_neg hne]
    exact hwhole.packs hash' index hindex

/-- **What rewriting a pack comes to**: nothing if it holds no victim, else the two files go and a
pack of the survivors is written. -/
theorem evictPackSteps_spec (victims : Finset OpId) (hwhole : Whole digest disk dir)
    (hindex : dir.indices[hash]? = some index) : (dir.evictPackSteps digest disk victims hash = some [] ∧
      ∀ record, dir.PackedIn hash record → record.opId ∉ victims) ∨ ∃ ops, Keyed ops ∧
      (∀ id record, (id, record) ∈ ops → id ∉ victims ∧ record.opId = id ∧ dir.PackedIn hash record) ∧
      (∀ record, dir.PackedIn hash record → record.opId ∉ victims → record.opId ∈ ops.map Prod.fst) ∧
      dir.evictPackSteps digest disk victims hash = some (.removePack hash :: .removeIndex hash ::
          if ops = [] then [] else (dir.dropPack hash).packSteps digest disk ops) := by
  obtain ⟨frames, hframes, hpack⟩ := hwhole.packs hash index hindex
  have hentry : ∀ record, dir.PackedIn hash record → ∃ offset, index[record.opId]? = some offset := by
    rintro record ⟨_, frames', hframes', hrecord⟩
    obtain rfl := some.inj (hframes.symm.trans hframes')
    obtain ⟨offset, hoffset, _⟩ := hpack.entry_of_mem hrecord
    exact ⟨offset, hoffset⟩
  unfold evictPackSteps
  simp only [hindex]
  split
  · obtain ⟨ops, hops, hmem, hall, hsub⟩ := survivors_spec victims hwhole hindex
      index.toList fun entry h => mem_toList_iff_getElem?_eq_some.mp h
    refine .inr ⟨ops, ⟨fun id record h => (hmem id record h).2.1, ?_⟩, hmem,
      fun record hrecord hno => ?_, ?_⟩
    · refine Nodup.sublist hsub ?_
      rw [map_fst_toList_eq_keys]
      exact nodup_keys
    · obtain ⟨offset, hoffset⟩ := hentry record hrecord
      exact hall (record.opId, offset)
        (mem_toList_iff_getElem?_eq_some.mpr hoffset) hno
    · rw [hops]
      cases ops with
      | nil => rfl
      | cons op ops => rfl
  · rename_i hany
    refine .inl ⟨rfl, fun record hrecord hvictim => hany ?_⟩
    obtain ⟨offset, hoffset⟩ := hentry record hrecord
    exact List.any_eq_true.mpr ⟨record.opId, mem_keys_iff.mpr ⟨offset, hoffset⟩,
      decide_eq_true hvictim⟩

/-- A pack's id can be read from somewhere else. -/
def Elsewhere (dir : OpsDir) (hash : PackHash) (id : OpId) : Prop :=
  (∃ record, dir.loose[id]? = some record) ∨
    ∃ hash' ≠ hash, ∃ record, dir.PackedIn hash' record ∧ record.opId = id

/-- Dropping a pack whose other ids can be read elsewhere or are in the pack written for it keeps
the log. -/
theorem keeps_of_writes (hwhole : Whole digest disk dir)
    (hops : ∀ id record, (id, record) ∈ ops → record.opId = id ∧ dir.PackedIn hash record)
    (hwrites : Writes digest disk (dir.dropPack hash) dir' ops)
    (hrest : ∀ record, dir.PackedIn hash record → record.opId ∉ victims → dir.Elsewhere hash record.opId ∨
        ∃ hash' record', dir'.PackedIn hash' record' ∧ record'.opId = record.opId) :
    Keeps digest disk victims dir dir' := by
  have hloose : dir'.loose = dir.loose := hwrites.loose
  have hold : ∀ hash' record, hash' ≠ hash → dir.PackedIn hash' record →
      dir'.PackedIn hash' record :=
    fun hash' record hne hp => hwrites.old hash' record (packedIn_dropPack.mpr ⟨hne, hp⟩)
  refine ⟨hwrites.whole, ?_, ?_⟩
  · rintro id record ⟨hid, hl | ⟨hash', hp⟩⟩
    · exact ⟨hid, .inl (hloose ▸ hl)⟩
    · rcases hwrites.new hash' record hp with hp | hop
      · exact ⟨hid, .inr ⟨hash', (packedIn_dropPack.mp hp).2⟩⟩
      · exact ⟨hid, .inr ⟨hash, (hops _ record hop).2⟩⟩
  · rintro id hvictim record ⟨rfl, hl | ⟨hash', hp⟩⟩
    · exact ⟨record, rfl, .inl (hloose.symm ▸ hl)⟩
    · by_cases hne : hash' = hash
      · subst hne
        rcases hrest record hp hvictim with (⟨r, hl⟩ | ⟨h', hne, r, hp', hid⟩) | ⟨h', r, hp', hid⟩
        · exact ⟨r, hwhole.loose _ r hl, .inl (hloose.symm ▸ hl)⟩
        · exact ⟨r, hid, .inr ⟨h', hold h' r hne hp'⟩⟩
        · exact ⟨r, hid, .inr ⟨h', hp'⟩⟩
      · exact ⟨record, rfl, .inr ⟨hash', hold hash' record hne hp⟩⟩

/-- **Rewriting a pack, run to the end, keeps the log**, and leaves no victim in it. -/
theorem keeps_evictPack (victims : Finset OpId) (hwhole : Whole digest disk dir)
    (hindex : dir.indices[hash]? = some index) : ∃ steps, dir.evictPackSteps digest disk victims hash = some steps ∧
      Keeps digest disk victims dir (dir.applyAll steps) ∧ (dir.applyAll steps).loose = dir.loose ∧
      (∀ hash' record, (dir.applyAll steps).PackedIn hash' record → record.opId ∈ victims →
        hash' ≠ hash ∧ dir.PackedIn hash' record) ∧
      ∀ (hash' : PackHash) (index : PackIndex), hash' ≠ hash → dir.indices[hash']? = some index →
        (dir.applyAll steps).indices[hash']? = some index := by
  rcases evictPackSteps_spec victims hwhole hindex with
    ⟨hsteps, hnone⟩ | ⟨ops, hkeyed, hops, hall, hsteps⟩
  · refine ⟨[], hsteps, Keeps.refl hwhole, rfl, fun hash' record hp hvictim => ⟨?_, hp⟩,
      fun _ _ _ h => h⟩
    rintro rfl
    exact hnone record hp hvictim
  · let rest := if ops = [] then [] else (dir.dropPack hash).packSteps digest disk ops
    have hwhole' := whole_dropPack hwhole hash
    have hwrites : Writes digest disk (dir.dropPack hash)
        ((dir.dropPack hash).applyAll rest) ops := by
      by_cases hnil : ops = []
      · simp only [rest, if_pos hnil]
        exact ⟨hwhole', rfl, fun _ _ h => h, fun _ _ h => h, fun _ _ h => .inl h⟩
      · simp only [rest, if_neg hnil]
        have := packSteps_take hwhole' hkeyed
          ((dir.dropPack hash).packSteps digest disk ops).length
        rwa [take_length] at this
    refine ⟨_, hsteps, keeps_of_writes hwhole (fun id record h => (hops id record h).2) hwrites
      (fun record hp hno => .inr ?_), hwrites.loose, fun hash' record hp hvictim => ?_,
      fun hash' index hne hindex' => hwrites.listed hash' index ?_⟩
    · have hmem := hall record hp hno
      have hne : ops ≠ [] := by
        rintro rfl
        cases hmem
      simp only [if_neg hne]
      exact packSteps_all hwhole' hkeyed hmem
    · rcases hwrites.new hash' record hp with hp | hop
      · exact packedIn_dropPack.mp hp
      · exact absurd hvictim (hops _ record hop).1
    · show (dir.indices.erase hash)[hash']? = some index
      rw [getElem?_erase_eq, if_neg (Ne.symm hne)]
      exact hindex'

/-- **Where a cut does no harm.** `k` steps over the packs listed are done: the cut does not fall
right behind the removal of a body, and where it falls between the removal of a pack's index and the
end of its rewriting, what was to stay of the pack can be read elsewhere. -/
def CutSafe (digest : Digest) (disk : Disk) (dir : OpsDir) (victims : Finset OpId) :
    List PackHash → Nat → Prop
  | [], _ => True
  | hash :: hashes, k =>
    match dir.evictPackSteps digest disk victims hash with
    | none => True
    | some steps =>
      if k < steps.length then
        k = 0 ∨ (2 ≤ k ∧ ∀ record, dir.PackedIn hash record → record.opId ∉ victims →
          dir.Elsewhere hash record.opId)
      else CutSafe digest disk (dir.applyAll steps) victims hashes (k - steps.length)

/-- **The packs, cut where it does no harm, keep the log.** -/
theorem keeps_evictPacks_take : ∀ (hashes : List PackHash) (dir : OpsDir) (k : Nat),
    Whole digest disk dir → CutSafe digest disk dir victims hashes k →
    Keeps digest disk victims dir
      (dir.applyAll ((dir.evictPacks digest disk victims hashes).1.take k))
  | [], dir, k, hwhole, _ => by
    unfold evictPacks
    rw [take_nil]
    exact Keeps.refl hwhole
  | hash :: hashes, dir, k, hwhole, hsafe => by
    unfold CutSafe at hsafe
    unfold evictPacks
    cases hsteps : dir.evictPackSteps digest disk victims hash with
    | none =>
      simp only
      rw [take_nil]
      exact Keeps.refl hwhole
    | some steps =>
      simp only [hsteps] at hsafe ⊢
      obtain ⟨index, hindex⟩ : ∃ index, dir.indices[hash]? = some index := by
        unfold evictPackSteps at hsteps
        cases hindex : dir.indices[hash]? with
        | none => simp [hindex] at hsteps
        | some index => exact ⟨index, rfl⟩
      by_cases hk : k < steps.length
      · rw [if_pos hk] at hsafe
        rw [take_append_of_le_length (Nat.le_of_lt hk)]
        rcases hsafe with rfl | ⟨htwo, helse⟩
        · rw [take_zero]
          exact Keeps.refl hwhole
        · rcases evictPackSteps_spec victims hwhole hindex with
            ⟨hnil, _⟩ | ⟨ops, hkeyed, hops, hall, hsome⟩
          · rw [hsteps] at hnil
            obtain rfl := some.inj hnil
            simp at hk
          · rw [hsteps] at hsome
            obtain rfl := some.inj hsome
            obtain ⟨j, rfl⟩ : ∃ j, k = j + 2 := ⟨k - 2, by omega⟩
            have hne : ops ≠ [] := by
              rintro rfl
              simp at hk
            rw [if_neg hne]
            exact keeps_of_writes hwhole (fun id record h => (hops id record h).2)
              (packSteps_take (whole_dropPack hwhole hash) hkeyed j)
              fun record hp hno => .inl (helse record hp hno)
      · rw [if_neg hk] at hsafe
        obtain ⟨steps', hsteps', hkeeps, _⟩ := keeps_evictPack victims hwhole hindex
        rw [hsteps] at hsteps'
        obtain rfl := some.inj hsteps'
        rw [take_append, applyAll_append, take_of_length_le (by omega)]
        exact hkeeps.trans (keeps_evictPacks_take hashes _ _ hkeeps.whole hsafe)

/-- **The packs, run to the end**: no error, the log is kept, and no victim is left in a pack. -/
theorem keeps_evictPacks (victims : Finset OpId) : ∀ (hashes : List PackHash) (dir : OpsDir),
    Whole digest disk dir →
    hashes.Nodup → (∀ hash ∈ hashes, ∃ index, dir.indices[hash]? = some index) →
    (∀ hash record, dir.PackedIn hash record → record.opId ∈ victims → hash ∈ hashes) →
    (dir.evictPacks digest disk victims hashes).2 = true ∧
      Keeps digest disk victims dir
        (dir.applyAll (dir.evictPacks digest disk victims hashes).1) ∧
      (dir.applyAll (dir.evictPacks digest disk victims hashes).1).loose = dir.loose ∧
      ∀ hash record,
        (dir.applyAll (dir.evictPacks digest disk victims hashes).1).PackedIn hash record →
          record.opId ∉ victims
  | [], dir, hwhole, _, _, hvictims =>
    ⟨rfl, Keeps.refl hwhole, rfl, fun hash record hp hvictim => by
      have := hvictims hash record hp hvictim
      cases this⟩
  | hash :: hashes, dir, hwhole, hnd, hlisted, hvictims => by
    rw [nodup_cons] at hnd
    obtain ⟨index, hindex⟩ := hlisted hash mem_cons_self
    obtain ⟨steps, hsteps, hkeeps, hloose, hclean, hothers⟩ :=
      keeps_evictPack victims hwhole hindex
    have hstill : ∀ hash' ∈ hashes, ∃ index, (dir.applyAll steps).indices[hash']? = some index := by
      intro hash' hmem
      obtain ⟨index', hindex'⟩ := hlisted hash' (mem_cons_of_mem _ hmem)
      exact ⟨index', hothers hash' index' (fun h => hnd.1 (h ▸ hmem)) hindex'⟩
    obtain ⟨hok, hkeeps', hloose', hnone⟩ := keeps_evictPacks victims hashes
      (dir.applyAll steps) hkeeps.whole hnd.2 hstill fun hash' record hp hvictim => by
        obtain ⟨hne, hp⟩ := hclean hash' record hp hvictim
        exact (mem_cons.mp (hvictims hash' record hp hvictim)).resolve_left hne
    unfold evictPacks
    simp only [hsteps]
    rw [applyAll_append]
    exact ⟨hok, hkeeps.trans hkeeps', hloose'.trans hloose, hnone⟩

end Keeps

end OpsDir

end LexLang.Vcs
