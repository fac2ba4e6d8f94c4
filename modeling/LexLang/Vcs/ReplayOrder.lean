/-
# LexLang.Vcs.ReplayOrder — what the walks of the log return, and in which order

`walkBack` is the breadth-first walk of the parent DAG (`walk_walkBack`), so it returns the
records of the ancestors, each once (`mem_walkBack_iff`). `linearize` returns the earliest-ready
order of its input (`linearize_eq_earliest`): the index table, the in-degrees and the heap of the
source leave no other trace. In an acyclic log `walkForward` therefore lists every record after its
parents (`ordered_walkForward`).
-/
import LexLang.Vcs.OpLog

namespace LexLang.Vcs

open LexLang.Graph
open List Option

namespace OpLog

/-! ## `walkBack` -/

variable {record : OperationRecord}

section WalkBack

variable {log : OpLog}

theorem walkBackLoop_eq : ∀ (fuel : Nat) (seen : Finset OpId) (frontier : List OpId)
    (out : List OperationRecord), log.walkBackLoop none fuel seen frontier out =
      out ++ (bfs log.parentsOf fuel seen frontier).filterMap log.get
  | 0, _, _, out => by simp [walkBackLoop, bfs]
  | _ + 1, _, [], out => by simp [walkBackLoop, bfs]
  | fuel + 1, seen, id :: frontier, out => by
    unfold walkBackLoop bfs
    by_cases hseen : id ∈ seen
    · rw [if_pos hseen, if_pos hseen, walkBackLoop_eq fuel]
    · rw [if_neg hseen, if_neg hseen]
      cases hget : log.get id with
      | none =>
        simp only [parentsOf, hget, map_none]
        exact walkBackLoop_eq fuel _ _ _
      | some record =>
        simp only [parentsOf, hget, map_some, any_none, Bool.false_eq_true,
          if_false, filterMap_cons]
        rw [walkBackLoop_eq fuel, append_assoc]
        rfl

theorem map_opId_filterMap_get {ids : List OpId} (h : ∀ id ∈ ids, log.get id ≠ none) :
    (ids.filterMap log.get).map OperationRecord.opId = ids := by
  induction ids with
  | nil => rfl
  | cons id ids ih =>
    obtain ⟨record, hrecord⟩ := ne_none_iff_exists'.mp (h id mem_cons_self)
    rw [filterMap_cons, hrecord, map_cons, get_opId hrecord,
      ih fun id hid => h id (mem_cons_of_mem _ hid)]

/-- The ids `walkBack` visits, in order. -/
def backIds (log : OpLog) (head : OpId) : List OpId :=
  bfs log.parentsOf log.walkFuel ∅ [head]

/-- **`walkBack` is the breadth-first walk from its head.** -/
theorem walk_backIds (log : OpLog) (head : OpId) : Walk log.parentsOf ∅ [head] (log.backIds head) :=
  walk_bfs log.parentsOf (fun _ h => mem_ids.mpr (parentsOf_ne_none.mp h)) _ _ _
    (walkCost_le_walkFuel head)

theorem walkBack_eq (head : OpId) : log.walkBack head none = (log.backIds head).filterMap log.get := by
  unfold walkBack backIds
  rw [walkBackLoop_eq, nil_append]

theorem map_opId_walkBack (log : OpLog) (head : OpId) :
    (log.walkBack head none).map OperationRecord.opId = log.backIds head := by
  rw [walkBack_eq, map_opId_filterMap_get]
  exact fun id hid => parentsOf_ne_none.mp ((walk_backIds log head).held id hid)

/-- **`walkBack` returns the records of the ancestors.** -/
theorem mem_walkBack_iff {head : OpId} : record ∈ log.walkBack head none ↔
      log.get record.opId = some record ∧ log.Reach head record.opId := by
  rw [walkBack_eq, mem_filterMap]
  constructor
  · rintro ⟨id, hid, hget⟩
    obtain rfl := get_opId hget
    exact ⟨hget, ((mem_walk_iff (walk_backIds log head) _).mp hid).1⟩
  · rintro ⟨hget, hreach⟩
    refine ⟨record.opId, (mem_walk_iff (walk_backIds log head) _).mpr ⟨hreach, ?_⟩, hget⟩
    exact parentsOf_ne_none.mpr (by simp [hget])

theorem nodup_backIds (log : OpLog) (head : OpId) : (log.backIds head).Nodup :=
  (walk_backIds log head).nodup

end WalkBack

/-! ## `linearize` -/

section Linearize

variable {records : List OperationRecord}

/-- `y` is a parent of `x`, and not `x` itself: the order `linearize` repairs. -/
def precedes (y x : OperationRecord) : Bool :=
  x.op.parents.contains y.opId && y.opId != x.opId

/-- The same of two records that are looked up. -/
def precedesAt : Option OperationRecord → Option OperationRecord → Bool
  | some y, some x => precedes y x
  | _, _ => false

variable {j : Nat}

theorem of_indexOf_eq_some {id : OpId} (h : indexOf records id = some j) :
    ∃ record, records[j]? = some record ∧ record.opId = id := by
  unfold indexOf at h
  obtain ⟨⟨record, k⟩, hfind, rfl⟩ := map_eq_some_iff.mp h
  have hmem := List.mem_of_find?_eq_some hfind
  rw [mem_reverse, List.mem_zipIdx_iff_getElem?] at hmem
  exact ⟨record, hmem, by simpa using List.find?_some hfind⟩

theorem indexOf_eq_some_iff (hnd : (records.map OperationRecord.opId).Nodup) {id : OpId} :
    indexOf records id = some j ↔ ∃ record, records[j]? = some record ∧ record.opId = id := by
  refine ⟨of_indexOf_eq_some, ?_⟩
  rintro ⟨record, hj, rfl⟩
  cases hfound : indexOf records record.opId with
  | none =>
    unfold indexOf at hfound
    rw [map_eq_none_iff, List.find?_eq_none] at hfound
    have := hfound (record, j) (by rw [mem_reverse, List.mem_zipIdx_iff_getElem?]; exact hj)
    simp at this
  | some k =>
    obtain ⟨record', hk, hid⟩ := of_indexOf_eq_some hfound
    have hlt : k < (records.map OperationRecord.opId).length := by
      rw [length_map]
      exact (List.getElem?_eq_some_iff.mp hk).1
    refine congrArg some ((List.getElem?_inj hlt hnd).mp ?_)
    rw [List.getElem?_map, List.getElem?_map, hk, hj, map_some, map_some, hid]

variable {i : Nat}

theorem mem_addInSetParent {seen : List Nat} {p : OpId} :
    j ∈ addInSetParent records i seen p ↔ j ∈ seen ∨ (j ≠ i ∧ indexOf records p = some j) := by
  unfold addInSetParent
  cases hp : indexOf records p with
  | none => simp
  | some k =>
    simp only [some.injEq]
    by_cases hk : k ≠ i ∧ k ∉ seen
    · rw [if_pos hk, mem_append, mem_singleton]
      refine or_congr_right ⟨?_, fun h => h.2.symm⟩
      rintro rfl
      exact ⟨hk.1, rfl⟩
    · rw [if_neg hk]
      refine ⟨.inl, ?_⟩
      rintro (hj | ⟨hj, rfl⟩)
      · exact hj
      · by_contra hno
        exact hk ⟨hj, hno⟩

theorem nodup_addInSetParent {seen : List Nat} {p : OpId} (h : seen.Nodup) :
    (addInSetParent records i seen p).Nodup := by
  unfold addInSetParent
  split
  · split
    · rename_i hk
      exact nodup_append'.mpr ⟨h, nodup_singleton _, by simpa using hk.2⟩
    · exact h
  · exact h

theorem foldl_addInSetParent (i : Nat) : ∀ (parents : List OpId) (seen : List Nat), seen.Nodup →
    (parents.foldl (addInSetParent records i) seen).Nodup ∧
      ∀ j, j ∈ parents.foldl (addInSetParent records i) seen ↔
        j ∈ seen ∨ (j ≠ i ∧ ∃ p ∈ parents, indexOf records p = some j)
  | [], seen, hnd => by simp [hnd]
  | p :: parents, seen, hnd => by
    obtain ⟨hnd', hmem⟩ := foldl_addInSetParent i parents (addInSetParent records i seen p)
      (nodup_addInSetParent hnd)
    refine ⟨hnd', fun j => (hmem j).trans ?_⟩
    rw [mem_addInSetParent]
    simp only [mem_cons, exists_eq_or_imp]
    tauto

theorem nodup_inSetParents (i : Nat) (parents : List OpId) : (inSetParents records i parents).Nodup :=
  (foldl_addInSetParent i parents [] nodup_nil).1

theorem mem_inSetParents {parents : List OpId} :
    j ∈ inSetParents records i parents ↔ j ≠ i ∧ ∃ p ∈ parents, indexOf records p = some j := by
  unfold inSetParents
  rw [(foldl_addInSetParent i parents [] nodup_nil).2]
  simp

variable (hnd : (records.map OperationRecord.opId).Nodup)
include hnd

/-- The fast path's test is that nothing needs reordering. -/
theorem ordered_of_inOrder (h : inOrder records = true) : Ordered precedes records := by
  have hlt : ∀ (i j : Nat) (x y : OperationRecord), records[i]? = some x → records[j]? = some y →
      y.opId ∈ x.op.parents → j < i := by
    intro i j x y hx hy hyx
    unfold inOrder at h
    rw [List.all_eq_true] at h
    have hp := List.all_eq_true.mp (h (x, i) (List.mem_zipIdx_iff_getElem?.mpr hx)) _ hyx
    rw [(indexOf_eq_some_iff hnd).mpr ⟨y, hy, rfl⟩] at hp
    simpa using hp
  constructor
  · rw [pairwise_iff_getElem]
    intro i j hi hj hij
    unfold precedes
    by_contra hpre
    rw [Bool.not_eq_false, Bool.and_eq_true] at hpre
    have := hlt i j _ _ (List.getElem?_eq_getElem hi) (List.getElem?_eq_getElem hj)
      (by simpa using hpre.1)
    omega
  · intro x _
    unfold precedes
    simp

theorem blockedBy_inSetParents {x y : OperationRecord} (hx : records[i]? = some x) (hy : records[j]? = some y) :
    (inSetParents records i x.op.parents).contains j = precedes y x := by
  rw [Bool.eq_iff_iff]
  unfold precedes
  rw [contains_eq_mem, decide_eq_true_iff, mem_inSetParents, Bool.and_eq_true,
    contains_eq_mem, decide_eq_true_iff, bne_iff_ne]
  have hid : j = i ↔ y.opId = x.opId := by
    constructor
    · rintro rfl
      rw [some.inj (hx.symm.trans hy)]
    · intro he
      have hj := (indexOf_eq_some_iff hnd).mpr ⟨y, hy, he⟩
      exact some.inj (hj.symm.trans ((indexOf_eq_some_iff hnd).mpr ⟨x, hx, rfl⟩))
  rw [and_comm, Ne, hid]
  refine and_congr_left fun _ => ⟨?_, fun hp => ⟨_, hp, (indexOf_eq_some_iff hnd).mpr ⟨y, hy, rfl⟩⟩⟩
  rintro ⟨p, hp, hj⟩
  obtain ⟨y', hy', rfl⟩ := of_indexOf_eq_some hj
  rwa [some.inj (hy.symm.trans hy')]

/-- **`linearize` is the earliest-ready order of its records.** -/
theorem linearize_eq_earliest : linearize records = earliest precedes records := by
  unfold linearize
  split
  · rename_i h
    exact (earliest_of_ordered (ordered_of_inOrder hnd h)).symm
  · let at? : Nat → Option OperationRecord := fun i => records[i]?
    have hrange : (List.range records.length).map at? = records.map some := by
      refine ext_getElem? fun i => ?_
      by_cases hi : i < records.length <;> simp [at?, hi]
    have hat : ∀ i ∈ List.range records.length, ∃ x, at? i = some x ∧ records[i]? = some x := by
      intro i hi
      rw [mem_range] at hi
      exact ⟨records[i], List.getElem?_eq_getElem hi, List.getElem?_eq_getElem hi⟩
    have hblocks : ∀ j ∈ List.range records.length, ∀ i ∈ List.range records.length,
        blockedBy (fun i => inSetParents records i (parentsAt records i)) j i =
          precedesAt (at? j) (at? i) := by
      intro j hj i hi
      obtain ⟨x, hx, hrx⟩ := hat i hi
      obtain ⟨y, hy, hry⟩ := hat j hj
      simp only [blockedBy, parentsAt, hrx, hx, hy, precedesAt]
      exact blockedBy_inSetParents hnd hrx hry
    have hinj : ∀ i ∈ List.range records.length, ∀ j ∈ List.range records.length,
        at? i = at? j → i = j := by
      intro i hi j hj hij
      obtain ⟨x, hx, hrx⟩ := hat i hi
      have hj' := (indexOf_eq_some_iff hnd).mpr ⟨x, hij ▸ hx, rfl⟩
      exact some.inj (((indexOf_eq_some_iff hnd).mpr ⟨x, hrx, rfl⟩).symm.trans hj')
    simp only
    rw [kahnOrder_eq_earliest (fun i _ => nodup_inSetParents i _) (fun i _ j hj => ?_), earliest_congr hblocks]
    · have hsort := @earliest_map _ precedesAt _ _ _ _ _ hinj
      rw [hrange, earliest_map (fun _ _ _ _ h => some.inj h)] at hsort
      have hfm := congrArg (List.filterMap id) hsort
      simpa [filterMap_map, Function.comp_def, at?, precedesAt] using hfm.symm
    · obtain ⟨_, p, _, hp⟩ := mem_inSetParents.mp hj
      obtain ⟨_, hj, _⟩ := of_indexOf_eq_some hp
      exact (List.getElem?_eq_some_iff.mp hj).1

theorem linearize_perm : (linearize records).Perm records := by
  rw [linearize_eq_earliest hnd]
  exact earliest_perm records

end Linearize

/-! ## `walkForward` -/

section WalkForward

variable {log : OpLog}

theorem nodup_walkBack (log : OpLog) (head : OpId) :
    ((log.walkBack head none).reverse.map OperationRecord.opId).Nodup := by
  rw [map_reverse, nodup_reverse, map_opId_walkBack]
  exact nodup_backIds log head

/-- **The replay order is the earliest-ready order of the reversed walk.** -/
theorem walkForward_eq_earliest (log : OpLog) (head : OpId) :
    log.walkForward head none = earliest precedes (log.walkBack head none).reverse := by
  unfold walkForward
  exact linearize_eq_earliest (nodup_walkBack log head)

theorem walkForward_perm (log : OpLog) (head : OpId) : (log.walkForward head none).Perm (log.walkBack head none) := by
  rw [walkForward_eq_earliest]
  exact (earliest_perm _).trans (reverse_perm _)

/-- **A replay goes over the records of the ancestors.** -/
theorem mem_walkForward_iff {head : OpId} : record ∈ log.walkForward head none ↔
      log.get record.opId = some record ∧ log.Reach head record.opId := by
  rw [(walkForward_perm log head).mem_iff, mem_walkBack_iff]

theorem edge_of_precedes {x y : OperationRecord} (hx : log.get x.opId = some x)
    (h : precedes y x = true) : Edge log.parentsOf x.opId y.opId := by
  unfold precedes at h
  rw [Bool.and_eq_true, contains_eq_mem, decide_eq_true_iff] at h
  exact edge_iff.mpr ⟨x, hx, h.1⟩

/-- In an acyclic log the records can be ranked, parents below children. -/
theorem Acyclic.exists_rank (hac : log.Acyclic) :
    ∃ rank : OpId → ℕ, ∀ a b, Edge log.parentsOf a b → rank b < rank a :=
  Graph.Acyclic.exists_rank log.ids (fun _ h => mem_ids.mpr (parentsOf_ne_none.mp h)) hac

/-- **In an acyclic log a replay reaches every record after its parents.** -/
theorem ordered_walkForward (hac : log.Acyclic) (head : OpId) : Ordered precedes (log.walkForward head none) := by
  obtain ⟨rank, hrank⟩ := Acyclic.exists_rank hac
  rw [walkForward_eq_earliest]
  refine @earliest_ordered _ _ _ _ (fun record => rank record.opId) fun x hx y _ hyx => ?_
  rw [mem_reverse, mem_walkBack_iff] at hx
  exact hrank _ _ (edge_of_precedes hx.1 hyx)

end WalkForward

/-! ## Acyclic logs -/

section Acyclic

variable {log : OpLog}

theorem acyclic_empty : empty.Acyclic := by
  intro a h
  obtain ⟨b, hab, _⟩ := Relation.TransGen.head'_iff.mp h
  obtain ⟨record, hrecord, _⟩ := edge_iff.mp hab
  simp at hrecord

/-- **Adding an operation that nothing points to keeps the log acyclic.** -/
theorem Acyclic.put (hac : log.Acyclic) (hself : record.opId ∉ record.op.parents)
    (h : ∀ child stored, log.get child = some stored → record.opId ∉ stored.op.parents) :
    (log.put record).Acyclic := by
  -- no edge of the new log leads to the new operation, so a cycle cannot pass through it
  have hedge : ∀ a b, Edge (log.put record).parentsOf a b →
      b ≠ record.opId ∧ (a ≠ record.opId → Edge log.parentsOf a b) := by
    intro a b hab
    obtain ⟨stored, hstored, hb⟩ := edge_iff.mp hab
    rw [get_put] at hstored
    cases hget : log.get a with
    | some old =>
      rw [hget, some_or] at hstored
      obtain rfl := some.inj hstored
      refine ⟨?_, fun _ => edge_iff.mpr ⟨old, hget, hb⟩⟩
      rintro rfl
      exact h a old hget hb
    | none =>
      rw [hget, none_or] at hstored
      split at hstored
      · rename_i hid
        obtain rfl := some.inj hstored
        refine ⟨?_, fun hne => absurd hid.symm hne⟩
        rintro rfl
        exact hself hb
      · cases hstored
  have hpath : ∀ a b, a ≠ record.opId → Relation.TransGen (Edge (log.put record).parentsOf) a b →
      b ≠ record.opId ∧ Relation.TransGen (Edge log.parentsOf) a b := by
    intro a b ha hab
    induction hab with
    | single hab => exact ⟨(hedge _ _ hab).1, .single ((hedge _ _ hab).2 ha)⟩
    | tail _ hbc ih => exact ⟨(hedge _ _ hbc).1, ih.2.tail ((hedge _ _ hbc).2 ih.1)⟩
  intro a haa
  have ha : a ≠ record.opId := by
    rcases Relation.TransGen.tail'_iff.mp haa with ⟨b, _, hba⟩
    exact (hedge b a hba).1
  exact hac a (hpath a a ha haa).2

/-- The log the given records leave, landed one after another. -/
def ofRecords (records : List OperationRecord) : OpLog := records.foldl put empty

/-- Landing records none of which is a parent of itself or of an earlier one keeps the log
acyclic. -/
theorem Acyclic.foldl_put : ∀ (records : List OperationRecord) (log : OpLog), log.Acyclic →
    (∀ child stored, log.get child = some stored →
      ∀ record ∈ records, record.opId ∉ stored.op.parents) →
    records.Pairwise (fun older newer => newer.opId ∉ older.op.parents) →
    (∀ record ∈ records, record.opId ∉ record.op.parents) → (records.foldl OpLog.put log).Acyclic
  | [], _, hac, _, _, _ => hac
  | record :: records, log, hac, hstored, hpair, hself => by
    rw [pairwise_cons] at hpair
    refine Acyclic.foldl_put records _ (hac.put (hself record mem_cons_self) ?_) ?_ hpair.2
      fun r hr => hself r (mem_cons_of_mem _ hr)
    · exact fun child stored h => hstored child stored h record mem_cons_self
    · intro child stored h r hr
      rw [get_put] at h
      cases hget : log.get child with
      | some old =>
        rw [hget, some_or] at h
        obtain rfl := some.inj h
        exact hstored child old hget r (mem_cons_of_mem _ hr)
      | none =>
        rw [hget, none_or] at h
        split at h
        · obtain rfl := some.inj h
          exact hpair.1 r hr
        · cases h

/-- … so a log whose records were landed parents first is acyclic. -/
theorem acyclic_ofRecords {records : List OperationRecord}
    (hpair : records.Pairwise fun older newer => newer.opId ∉ older.op.parents)
    (hself : ∀ record ∈ records, record.opId ∉ record.op.parents) : (ofRecords records).Acyclic :=
  Acyclic.foldl_put records empty acyclic_empty (by simp) hpair hself

end Acyclic

end OpLog

end LexLang.Vcs
