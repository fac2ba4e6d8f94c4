/-
# LexLang.Vcs.Replay — the head map: what replaying a history leaves

A head names one stage for every live sig. It is never stored as such; it is what the transitions of
the head's history leave, replayed in the order of `walkForward` from the empty map
(`apply_transition` in `lex-store/src/branches.rs`, and `head_at` in `lex-vcs/src/merge.rs`, which is
the same fold).

Sig by sig a replay is simple: a transition either writes a sig or leaves it alone
(`StageTransition.writes`), and the last write counts (`getElem?_replayOn`).
-/
import LexLang.Vcs.Continuation

namespace LexLang.Vcs

open LexLang.Graph
open Option Relation.ReflTransGen Std.ExtTreeMap

/-- The sig → stage map of a head. -/
abbrev HeadMap := Std.ExtTreeMap SigId StageId

/-! ## One transition -/

/-- Bind a sig to a stage, or remove it. -/
def setEntry (map : HeadMap) (sig : SigId) : Option StageId → HeadMap
  | some stage => map.insert sig stage
  | none => map.erase sig

/-- What one transition does to the map. -/
def applyTransition (map : HeadMap) : StageTransition → HeadMap
  | .create sigId stageId => map.insert sigId stageId
  | .replace sigId _ toStage => map.insert sigId toStage
  | .remove sigId _ => map.erase sigId
  | .rename fromSig toSig bodyStageId => (map.erase fromSig).insert toSig bodyStageId
  | .importOnly => map
  | .filesOnly => map
  | .merge entries => entries.toList.foldl (fun map entry => setEntry map entry.1 entry.2) map

/-- **What a transition says about a sig**: nothing, or the binding it leaves. -/
def StageTransition.writes : StageTransition → SigId → Option (Option StageId)
  | .create sigId stageId, sig => if sig = sigId then some (some stageId) else none
  | .replace sigId _ toStage, sig => if sig = sigId then some (some toStage) else none
  | .remove sigId _, sig => if sig = sigId then some none else none
  | .rename fromSig toSig bodyStageId, sig =>
    if sig = toSig then some (some bodyStageId) else if sig = fromSig then some none else none
  | .importOnly, _ => none
  | .filesOnly, _ => none
  | .merge entries, sig => entries[sig]?

theorem getElem?_setEntry (map : HeadMap) (key sig : SigId) (value : Option StageId) :
    (setEntry map key value)[sig]? = if sig = key then value else map[sig]? := by
  cases value with
  | none =>
    rw [setEntry, Std.ExtTreeMap.getElem?_erase]
    simp only [Std.compare_eq_iff_eq, @eq_comm _ key]
  | some stage =>
    rw [setEntry, Std.ExtTreeMap.getElem?_insert]
    simp only [Std.compare_eq_iff_eq, @eq_comm _ key]

theorem lookup_of_mem {β : Type} {entries : List (String × β)} {sig : String}
    {value : β} (hnd : (entries.map Prod.fst).Nodup) (h : (sig, value) ∈ entries) :
    entries.lookup sig = some value := by
  induction entries with
  | nil => cases h
  | cons entry entries ih =>
    rw [List.map_cons, List.nodup_cons] at hnd
    rcases List.mem_cons.mp h with rfl | h
    · rw [List.lookup_cons_self]
    · have hne : sig ≠ entry.1 := fun he => hnd.1 (he ▸ List.mem_map_of_mem h)
      rw [List.lookup_cons, beq_false_of_ne hne]
      exact ih hnd.2 h

theorem getElem?_foldl_setEntry (sig : SigId) : ∀ (entries : List (SigId × Option StageId))
    (map : HeadMap), (entries.map Prod.fst).Nodup →
    (entries.foldl (fun map entry => setEntry map entry.1 entry.2) map)[sig]? =
      (entries.lookup sig).getD map[sig]?
  | [], map, _ => rfl
  | (key, value) :: entries, map, hnd => by
    rw [List.map_cons, List.nodup_cons] at hnd
    rw [List.foldl_cons, getElem?_foldl_setEntry sig entries _ hnd.2, getElem?_setEntry]
    by_cases hsig : sig = key
    · subst hsig
      have hnone : entries.lookup sig = none := by
        rw [List.lookup_eq_none_iff]
        intro entry hentry
        have hkey : entry.1 ∈ entries.map Prod.fst := List.mem_map_of_mem hentry
        have hne : sig ≠ entry.1 := fun h => hnd.1 (h ▸ hkey)
        simpa using hne
      simp [hnone]
    · rw [if_neg hsig, List.lookup_cons, beq_false_of_ne hsig]

theorem nodup_keys_toList {β : Type} (entries : Std.ExtTreeMap String β) : (entries.toList.map Prod.fst).Nodup := by
  rw [map_fst_toList_eq_keys]
  exact nodup_keys

theorem lookup_toList {β : Type} (entries : Std.ExtTreeMap String β) (sig : String) :
    entries.toList.lookup sig = entries[sig]? := by
  cases h : entries[sig]? with
  | some value =>
    exact lookup_of_mem (nodup_keys_toList entries)
      (Std.ExtTreeMap.mem_toList_iff_getElem?_eq_some.mpr h)
  | none =>
    rw [List.lookup_eq_none_iff]
    intro entry hentry
    have hne : sig ≠ entry.1 := by
      rintro rfl
      rw [Std.ExtTreeMap.mem_toList_iff_getElem?_eq_some.mp hentry] at h
      cases h
    simpa using hne

/-- **A transition changes exactly the sigs it writes.** -/
theorem getElem?_applyTransition (map : HeadMap) (t : StageTransition) (sig : SigId) :
    (applyTransition map t)[sig]? = (t.writes sig).getD map[sig]? := by
  cases t with
  | create sigId _ | replace sigId _ _ | remove sigId _ =>
    rw [applyTransition, StageTransition.writes, ← setEntry, getElem?_setEntry]
    split <;> rfl
  | rename fromSig toSig bodyStageId =>
    rw [applyTransition, StageTransition.writes, ← setEntry, ← setEntry, getElem?_setEntry, getElem?_setEntry]
    split
    · rfl
    · split <;> rfl
  | importOnly | filesOnly => rfl
  | merge entries =>
    rw [applyTransition, getElem?_foldl_setEntry, lookup_toList]
    · rfl
    · exact nodup_keys_toList entries

/-! ## A history -/

/-- Replay records, in order, on top of a map. -/
def replayOn (map : HeadMap) (records : List OperationRecord) : HeadMap :=
  records.foldl (fun map record => applyTransition map record.produces) map

/-- **The head map of an operation**: its whole history replayed from nothing. -/
def OpLog.replay (log : OpLog) (head : OpId) : HeadMap := replayOn ∅ (log.walkForward head none)

/-- The head map of a head that may not be there yet. -/
def OpLog.replayHead (log : OpLog) : Option OpId → HeadMap
  | some head => log.replay head
  | none => ∅

@[simp] theorem replayOn_nil (map : HeadMap) : replayOn map [] = map := rfl

@[simp] theorem replayOn_cons (map : HeadMap) (record : OperationRecord)
    (records : List OperationRecord) : replayOn map (record :: records) =
      replayOn (applyTransition map record.produces) records := rfl

theorem replayOn_append (map : HeadMap) (first second : List OperationRecord) :
    replayOn map (first ++ second) = replayOn (replayOn map first) second := by
  unfold replayOn
  rw [List.foldl_append]

/-- The last thing a history says about a sig. -/
def lastWrite (records : List OperationRecord) (sig : SigId) : Option (Option StageId) :=
  records.reverse.findSome? fun record => record.produces.writes sig

/-- **Sig by sig, the last write counts.** -/
theorem getElem?_replayOn (records : List OperationRecord) (map : HeadMap) (sig : SigId) :
    (replayOn map records)[sig]? = (lastWrite records sig).getD map[sig]? := by
  induction records generalizing map with
  | nil => rfl
  | cons record records ih =>
    rw [replayOn_cons, ih, getElem?_applyTransition]
    unfold lastWrite
    rw [List.reverse_cons, List.findSome?_append]
    cases records.reverse.findSome? fun record => record.produces.writes sig with
    | some value => rfl
    | none =>
      simp only [none_or, getD_none, List.findSome?_cons, List.findSome?_nil]
      cases record.produces.writes sig <;> rfl

variable {records : List OperationRecord}

/-! ## Replaying on top of a head, and in a log that has grown -/

namespace OpLog

variable {log : OpLog}

variable {head : OpId}

variable {since : OpId}

/-- **Incremental replay is full replay.** -/
theorem replay_eq_replayOn (hac : log.Acyclic) (hne : head ≠ since)
    {recs : List OperationRecord} (hrecs : log.walkForwardSince head since = some recs)
    (hcont : continuesFrom recs since = true) : log.replay head = replayOn (log.replay since) (linearize recs) := by
  unfold replay
  rw [walkForward_eq_append hac hne hrecs hcont, replayOn_append]

variable {log' : OpLog}

section

variable (h : ∀ id, log.Reach head id → log.get id = log'.get id)
include h

theorem walkBack_congr : log.walkBack head none = log'.walkBack head none := by
  have hwalk : Walk log'.parentsOf ∅ [head] (log.backIds head) := by
    refine (walk_backIds log head).congr fun a ha b hab => ?_
    rw [List.mem_singleton.mp ha] at hab
    simp only [parentsOf, h b hab]
  have hids : log.backIds head = log'.backIds head := hwalk.unique (walk_backIds log' head)
  rw [walkBack_eq, walkBack_eq, ← hids]
  refine List.filterMap_congr fun id hid => ?_
  exact h id ((mem_walk_iff (walk_backIds log head) id).mp hid).1

theorem walkForward_congr : log.walkForward head none = log'.walkForward head none := by
  rw [walkForward_eq_earliest, walkForward_eq_earliest, walkBack_congr h]

theorem replay_congr : log.replay head = log'.replay head := by
  unfold replay
  rw [walkForward_congr h]

end

variable {id : OpId}

theorem not_reach_of_unreferenced (hne : head ≠ id)
    (h : ∀ child record, log.get child = some record → id ∉ record.op.parents) : ¬ log.Reach head id := by
  intro hreach
  rcases cases_tail hreach with rfl | ⟨c, _, hc⟩
  · exact hne rfl
  · obtain ⟨record, hrecord, hp⟩ := edge_iff.mp hc
    exact h c record hrecord hp

variable {record : OperationRecord}

/-- **An operation added to the log changes no head but its own**, as long as nothing points to it
yet. -/
theorem replay_put (hne : head ≠ record.opId)
    (h : ∀ child stored, log.get child = some stored → record.opId ∉ stored.op.parents) :
    (log.put record).replay head = log.replay head := by
  refine (replay_congr fun id hid => ?_).symm
  have hid' : record.opId ≠ id := by
    rintro rfl
    exact not_reach_of_unreferenced hne h hid
  rw [get_put, if_neg hid', or_none]

/-! ## An operation on top of its parents -/

/-- The fuel of a walk covers an operation and its parents. -/
theorem length_lt_walkFuel (hget : log.get id = some record) : record.op.parents.length < log.walkFuel := by
  have hmem : record.op.parents.length ∈
      log.records.toList.map fun entry => entry.2.op.parents.length :=
    List.mem_map.mpr ⟨(id, record), Std.ExtTreeMap.mem_toList_iff_getElem?_eq_some.mpr hget, rfl⟩
  have hle := List.le_sum_of_mem hmem
  unfold walkFuel
  omega

/-- Once `since` is met, meeting it again changes nothing. -/
theorem walkSinceLoop_same {seen : Finset OpId} (hseen : since ∈ seen)
    (out : List OperationRecord) : ∀ (fuel : Nat) (frontier : List OpId),
      (∀ p ∈ frontier, p = since) → log.walkSinceLoop since fuel seen frontier true out = (true, out)
  | 0, _, _ => rfl
  | _ + 1, [], _ => rfl
  | fuel + 1, p :: frontier, hall => by
    rw [walkSinceLoop, if_pos (hall p List.mem_cons_self ▸ hseen)]
    exact walkSinceLoop_same hseen out fuel frontier fun q hq => hall q (List.mem_cons_of_mem _ hq)

variable {parent : OpId}

theorem walkForwardSince_parent (hne : id ≠ parent)
    (hget : log.get id = some record) (hmem : parent ∈ record.op.parents)
    (hall : ∀ p ∈ record.op.parents, p = parent) : log.walkForwardSince id parent = some [record] := by
  obtain ⟨fuel, hfuel⟩ := Nat.exists_eq_add_of_lt (length_lt_walkFuel hget)
  have hloop : log.walkSinceLoop parent log.walkFuel ∅ [id] false [] = (true, [record]) := by
    have hfilter : (record.op.parents.filter fun p => decide (p ∉ insert id (∅ : Finset OpId))) =
        record.op.parents := by
      refine List.filter_eq_self.mpr fun p hp => ?_
      rw [hall p hp]
      simpa using hne.symm
    rw [hfuel]
    -- the operation is recorded, then the parent is met, then nothing else is pending
    rw [walkSinceLoop, if_neg (Finset.notMem_empty id), if_neg hne, hget]
    simp only [hfilter, List.nil_append]
    cases hparents : record.op.parents with
    | nil =>
      rw [hparents] at hmem
      cases hmem
    | cons p parents =>
      rw [hparents] at hall
      obtain rfl := hall p List.mem_cons_self
      rw [List.length_cons, Nat.add_right_comm, walkSinceLoop, if_neg (by simpa using hne.symm),
        if_pos rfl]
      exact walkSinceLoop_same (Finset.mem_insert_self _ _) _ _ _ fun q hq =>
        hall q (List.mem_cons_of_mem _ hq)
  unfold walkForwardSince
  rw [if_neg hne, hloop]
  rfl

theorem scanParents_same {marks : Nat → Mark} :
    ∀ (parents : List OpId) (scan : ParentScan), (∀ p ∈ parents, p = since) → scan.reaches = true →
      scanParents records since marks parents scan = some scan
  | [], _, _, _ => rfl
  | p :: parents, scan, hall, hreaches => by
    rw [scanParents, if_pos (hall p List.mem_cons_self)]
    have hscan : { scan with reaches := true } = scan := by rw [← hreaches]
    rw [hscan]
    exact scanParents_same parents scan (fun q hq => hall q (List.mem_cons_of_mem _ hq)) hreaches

theorem continuesFrom_parent (hmem : parent ∈ record.op.parents) (hall : ∀ p ∈ record.op.parents, p = parent) :
    continuesFrom [record] parent = true := by
  have hscan : ∀ marks, scanParents [record] parent marks record.op.parents ⟨[0], false, false⟩ =
      some ⟨[0], false, true⟩ := by
    intro marks
    cases hparents : record.op.parents with
    | nil =>
      rw [hparents] at hmem
      cases hmem
    | cons p parents =>
      rw [hparents] at hall
      rw [scanParents, if_pos (hall p List.mem_cons_self)]
      exact scanParents_same parents _ (fun q hq => hall q (List.mem_cons_of_mem _ hq)) rfl
  have hempty : record.op.parents ≠ [] := List.ne_nil_of_mem hmem
  simp [continuesFrom, continuesFuel, continuesLoop, parentsAt, hscan, hempty, Mark.done]

theorem linearize_singleton (hself : record.opId ∉ record.op.parents) : linearize [record] = [record] := by
  have hinOrder : inOrder [record] = true := by
    simp only [inOrder, indexOf, List.zipIdx_singleton, List.all_cons, List.all_nil, Bool.and_true,
      List.all_eq_true, List.reverse_singleton]
    intro p hp
    have hp' : (record.opId == p) = false := by
      rw [beq_eq_false_iff_ne]
      rintro rfl
      exact hself hp
    rw [List.find?_cons_of_neg (by simpa using hp'), List.find?_nil]
    rfl
  unfold linearize
  rw [if_pos hinOrder]

theorem Acyclic.opId_notMem_parents (hac : log.Acyclic)
    (hget : log.get id = some record) : record.opId ∉ record.op.parents := by
  intro hself
  rw [get_opId hget] at hself
  exact hac id (.single (edge_iff.mpr ⟨record, hget, hself⟩))

/-- **An operation with one parent moves the head map by its own transition.** -/
theorem replay_of_parent (hac : log.Acyclic) (hget : log.get id = some record) (hmem : parent ∈ record.op.parents)
    (hall : ∀ p ∈ record.op.parents, p = parent) :
    log.replay id = applyTransition (log.replay parent) record.produces := by
  have hself := hac.opId_notMem_parents hget
  have hne : id ≠ parent := by
    rintro rfl
    rw [get_opId hget] at hself
    exact hself hmem
  rw [replay_eq_replayOn hac hne (walkForwardSince_parent hne hget hmem hall)
    (continuesFrom_parent hmem hall), linearize_singleton hself]
  rfl

theorem replay_of_root (hget : log.get id = some record)
    (hparents : record.op.parents = []) : log.replay id = applyTransition ∅ record.produces := by
  have hnext : log.parentsOf id = some [] := by
    unfold parentsOf
    rw [hget, map_some, hparents]
  have hids : log.backIds id = [id] :=
    (walk_backIds log id).unique (.visit (Finset.notMem_empty id) hnext (.done _))
  have hback : log.walkBack id none = [record] := by
    rw [walkBack_eq, hids]
    simp [hget]
  unfold replay walkForward
  rw [hback, List.reverse_singleton, linearize_singleton (by simp [hparents])]
  rfl

/-- The head map after an operation that was applied to a head as the parents rule asks of an
operation with at most one parent. -/
theorem replay_of_toList (hac : log.Acyclic) {head : Option OpId} (hget : log.get id = some record)
    (hparents : ∀ p, p ∈ record.op.parents ↔ p ∈ head.toList) :
    log.replay id = applyTransition (log.replayHead head) record.produces := by
  cases head with
  | none => exact replay_of_root hget (List.eq_nil_iff_forall_not_mem.mpr fun p => by simp [hparents])
  | some parent =>
    exact replay_of_parent hac hget (by simp [hparents]) fun p hp => by simpa [hparents] using hp

/-- **A replay ends with the operation itself**, after all of its ancestors. -/
theorem walkForward_eq_concat (hac : log.Acyclic) (hget : log.get id = some record) :
    ∃ ancestors, log.walkForward id none = ancestors ++ [record] := by
  have hid := get_opId hget
  have hmem : record ∈ log.walkForward id none :=
    mem_walkForward_iff.mpr ⟨hid ▸ hget, hid ▸ Relation.ReflTransGen.refl⟩
  obtain ⟨ancestors, last, hlast⟩ := List.eq_nil_or_concat'
    (log.walkForward id none) |>.resolve_left (List.ne_nil_of_mem hmem)
  refine ⟨ancestors, ?_⟩
  have hordered := (ordered_walkForward hac id).1
  rw [hlast] at hordered hmem
  obtain ⟨hstored, hreach⟩ := mem_walkForward_iff.mp
    (hlast ▸ List.mem_append_right ancestors List.mem_cons_self : last ∈ log.walkForward id none)
  rcases cases_tail hreach with hsame | ⟨child, hchild, hedge⟩
  · rw [hsame, hget] at hstored
    rw [hlast, some.inj hstored]
  · -- another record at the end would be replayed after one it is a parent of
    exfalso
    obtain ⟨y, hy, hparent⟩ := edge_iff.mp hedge
    have hyid : y.opId = child := get_opId hy
    have hylast : y ≠ last := by
      rintro rfl
      exact hac.opId_notMem_parents hy hparent
    have hymem : y ∈ ancestors ++ [last] :=
      hlast ▸ mem_walkForward_iff.mpr ⟨hyid ▸ hy, hyid ▸ hchild⟩
    have hbefore : y ∈ ancestors := by simpa [hylast] using hymem
    have hfalse := (List.pairwise_append.mp hordered).2.2 y hbefore last List.mem_cons_self
    have hidne : last.opId ≠ y.opId := fun he => hac.opId_notMem_parents hy (he ▸ hparent)
    simp [precedes, hparent, hidne] at hfalse

/-- What it writes itself is what its head map holds. -/
theorem getElem?_replay_of_writes (hac : log.Acyclic)
    (hget : log.get id = some record) {sig : SigId} {value : Option StageId}
    (hwrites : record.produces.writes sig = some value) : (log.replay id)[sig]? = value := by
  obtain ⟨ancestors, hwalk⟩ := walkForward_eq_concat hac hget
  unfold replay
  rw [hwalk, replayOn_append, replayOn_cons, replayOn_nil, getElem?_applyTransition, hwrites]
  rfl

end OpLog

end LexLang.Vcs
