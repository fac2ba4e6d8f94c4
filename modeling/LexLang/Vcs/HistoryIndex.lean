/-
# LexLang.Vcs.HistoryIndex — one head's history in memory, and its two orders

The index behind a paged pull (`lex-vcs/src/history_index.rs`): the ids of one `walkBack` and the
parent edges between them as positions, in compressed rows. `since` answers `opsSince` from it, and
`topological` puts a delta in topological order with a max-heap over positions.

Both are the log's own functions in other words: `map_id_since` ties `since` to `opsSince`, and
`map_id_topological` ties `topological` to `OpLog.linearize`.

Positions are `u32` in the source.
-/
import LexLang.Graph.Mark
import LexLang.Vcs.ReplayOrder

namespace LexLang.Vcs

open LexLang.Graph
open Bool List Option

/-! ## The index -/

/-- Every operation reachable from one head, in `walkBack` order, with its parent edges. -/
structure HistoryIndex where
  head : OpId
  ids : List OpId
  pos : OpId → Option Nat
  /-- The parents of position `i` are `parents[parentStart[i] .. parentStart[i + 1]]`. -/
  parentStart : List Nat
  parents : List Nat

namespace HistoryIndex

/-- Close the row of the record before, and fill the record's own: a parent without a record has no
position and no edge. -/
def pushRow (pos : OpId → Option Nat) (rows : List Nat × List Nat) (record : OperationRecord) :
    List Nat × List Nat :=
  (rows.1 ++ [rows.2.length], rows.2 ++ record.op.parents.filterMap pos)

/-- **Walk `head`'s history once and index it.** -/
def build (log : OpLog) (head : OpId) : HistoryIndex :=
  let records := log.walkBack head none
  let pos := OpLog.indexOf records
  let rows := records.foldl (pushRow pos) ([], [])
  { head, ids := records.map OperationRecord.opId, pos
    parentStart := rows.1 ++ [rows.2.length], parents := rows.2 }

/-- The op id at a position; `none` where the source's indexing panics. -/
def id (index : HistoryIndex) (i : Nat) : Option OpId := index.ids[i]?

/-- The row of a position. -/
def parentsAt (index : HistoryIndex) (i : Nat) : List Nat :=
  match index.parentStart[i]?, index.parentStart[i + 1]? with
  | some lo, some hi => (index.parents.drop lo).take (hi - lo)
  | _, _ => []

/-- The positions a base rules out: its ancestry, in memory when the head's history holds it, else
from the log. -/
def excluded (index : HistoryIndex) (log : OpLog) (base : Option OpId) (i : Nat) : Bool :=
  match base with
  | none => false
  | some b =>
    match index.pos b with
    | some start => decide (i ∈ markFrom index.parentsAt index.ids.length start)
    | none =>
      let anc := (log.walkBack b none).map OperationRecord.opId
      (index.id i).any fun id => anc.contains id

/-- **The positions reachable from the head but not from `base`**, oldest first. -/
def since (index : HistoryIndex) (log : OpLog) (base : Option OpId) : List Nat :=
  (List.range index.ids.length).reverse.filter fun i => !index.excluded log base i

/-- Count one parent entry of `i`, and note `i` among that parent's children. -/
def addEdge (delta : List Nat) (i : Nat) (edges : (Nat → Nat) × (Nat → List Nat)) (p : Nat) :
    (Nat → Nat) × (Nat → List Nat) :=
  if p ∈ delta then
    (Function.update edges.1 i (edges.1 i + 1), Function.update edges.2 p (edges.2 p ++ [i]))
  else edges

/-- The in-degrees and the children lists of a delta. -/
def edges (index : HistoryIndex) (delta : List Nat) : (Nat → Nat) × (Nat → List Nat) :=
  delta.foldl (fun edges i => (index.parentsAt i).foldl (addEdge delta i) edges)
    (fun _ => 0, fun _ => [])

/-- **A delta, parents first**: the largest ready position next. -/
def topological (index : HistoryIndex) (delta : List Nat) : List Nat :=
  let (indegree, children) := index.edges delta
  heapLoop (· ≥ ·) children delta.length indegree
    ((delta.filter fun i => decide (indegree i = 0)).insertionSort (· ≥ ·))

/-! ## The rows of a built index -/

variable {i : Nat} {id : OpId}

variable {j : Nat}

section Rows

variable {log : OpLog} {head : OpId}

theorem foldl_pushRow (pos : OpId → Option Nat) : ∀ (records : List OperationRecord)
    (rows : List Nat × List Nat),
    (records.foldl (pushRow pos) rows).2 =
        rows.2 ++ records.flatMap (fun record => record.op.parents.filterMap pos) ∧
      (records.foldl (pushRow pos) rows).1 = rows.1 ++ (List.range records.length).map fun i =>
        (rows.2 ++ (records.take i).flatMap fun record => record.op.parents.filterMap pos).length
  | [], rows => by simp
  | record :: records, rows => by
    obtain ⟨hsnd, hfst⟩ := foldl_pushRow pos records (pushRow pos rows record)
    rw [foldl_cons]
    refine ⟨?_, ?_⟩
    · rw [hsnd]
      simp [pushRow]
    · rw [hfst, length_cons, range_succ_eq_map]
      simp [pushRow, Function.comp_def]

theorem ids_build : (build log head).ids = log.backIds head := OpLog.map_opId_walkBack log head

theorem length_walkBack : (log.walkBack head none).length = (build log head).ids.length := by
  show _ = ((log.walkBack head none).map OperationRecord.opId).length
  rw [length_map]

variable {record : OperationRecord}

/-- **The row of a position holds the positions of its record's parents.** -/
theorem parentsAt_build (h : (log.walkBack head none)[i]? = some record) :
    (build log head).parentsAt i = record.op.parents.filterMap (build log head).pos := by
  obtain ⟨hi, hrecord⟩ := List.getElem?_eq_some_iff.mp h
  let row : OperationRecord → List Nat := fun record =>
    record.op.parents.filterMap (build log head).pos
  let start : Nat → Nat := fun i => (((log.walkBack head none).take i).flatMap row).length
  obtain ⟨hsnd, hfst⟩ := foldl_pushRow (build log head).pos (log.walkBack head none) ([], [])
  have hparents : (build log head).parents = (log.walkBack head none).flatMap row := hsnd
  have hstarts : (build log head).parentStart =
      (List.range (log.walkBack head none).length).map start ++
        [start (log.walkBack head none).length] := by
    show ((log.walkBack head none).foldl (pushRow (build log head).pos) ([], [])).1 ++
      [((log.walkBack head none).foldl (pushRow (build log head).pos) ([], [])).2.length] = _
    rw [hfst, hsnd]
    simp only [nil_append, start, row, take_length]
  have hstart : ∀ k ≤ (log.walkBack head none).length,
      (build log head).parentStart[k]? = some (start k) := by
    intro k hk
    rw [hstarts]
    rcases Nat.lt_or_eq_of_le hk with hk | rfl
    · rw [List.getElem?_append_left (by simpa using hk)]
      simp [hk]
    · rw [List.getElem?_append_right (by simp)]
      simp
  have hnext : start (i + 1) = start i + (row record).length := by
    simp only [start]
    rw [take_succ_eq_append_getElem hi, hrecord, flatMap_append, length_append, flatMap_singleton]
  have hsplit : (log.walkBack head none).flatMap row =
      ((log.walkBack head none).take i).flatMap row ++
        (row record ++ ((log.walkBack head none).drop (i + 1)).flatMap row) := by
    rw [← flatMap_cons, ← hrecord, getElem_cons_drop, ← flatMap_append, take_append_drop]
  unfold parentsAt
  rw [hstart i (by omega), hstart (i + 1) (by omega), hparents, hsplit, hnext]
  simp only
  rw [drop_left, Nat.add_sub_cancel_left, take_left]

theorem pos_build : (build log head).pos id = some i ↔ (build log head).id i = some id := by
  have hnd : ((log.walkBack head none).map OperationRecord.opId).Nodup := by
    rw [OpLog.map_opId_walkBack]
    exact OpLog.nodup_backIds log head
  show OpLog.indexOf (log.walkBack head none) id = some i ↔
    ((log.walkBack head none).map OperationRecord.opId)[i]? = some id
  rw [OpLog.indexOf_eq_some_iff hnd, List.getElem?_map, map_eq_some_iff]

theorem id_build : (build log head).id i = some id ↔
    ∃ record, (log.walkBack head none)[i]? = some record ∧ record.opId = id := by
  show ((log.walkBack head none).map OperationRecord.opId)[i]? = some id ↔ _
  rw [List.getElem?_map, map_eq_some_iff]

theorem mem_parentsAt_iff (h : (log.walkBack head none)[i]? = some record) :
    j ∈ (build log head).parentsAt i ↔ ∃ p ∈ record.op.parents, (build log head).id j = some p := by
  rw [parentsAt_build h, mem_filterMap]
  simp only [pos_build]

theorem lt_of_mem_parentsAt (hi : i < (build log head).ids.length)
    (h : j ∈ (build log head).parentsAt i) : j < (build log head).ids.length := by
  rw [← length_walkBack] at hi
  obtain ⟨p, _, hp⟩ := (mem_parentsAt_iff (List.getElem?_eq_getElem hi)).mp h
  exact (List.getElem?_eq_some_iff.mp hp).1

theorem exists_record (hi : i < (build log head).ids.length) : ∃ record, (log.walkBack head none)[i]? = some record ∧
      (build log head).id i = some record.opId ∧ log.get record.opId = some record := by
  rw [← length_walkBack] at hi
  have hrecord := List.getElem?_eq_getElem hi
  exact ⟨_, hrecord, id_build.mpr ⟨_, hrecord, rfl⟩,
    (OpLog.mem_walkBack_iff.mp (mem_of_getElem? hrecord)).1⟩

theorem exists_id_iff : (∃ i, (build log head).id i = some id) ↔ log.Reach head id ∧ log.get id ≠ none := by
  rw [← OpLog.parentsOf_ne_none, ← mem_walk_iff (OpLog.walk_backIds log head) id, ← ids_build, mem_iff_getElem?]
  rfl

end Rows

/-! ## `since` is `opsSince`, oldest first -/

variable {base : Option OpId}

section Since

variable {log : OpLog} {head : OpId}

/-- Following the rows is following the parents, as long as the log holds them. -/
theorem reach_rows {start : Nat} {b : OpId} (hb : (build log head).id start = some b) :
    Relation.ReflTransGen (Next (build log head).parentsAt) start i ↔
      ∃ a, (build log head).id i = some a ∧ log.Reach b a := by
  constructor
  · intro h
    induction h with
    | refl => exact ⟨b, hb, .refl⟩
    | tail _ hjk ih =>
      obtain ⟨a, ha, hreach⟩ := ih
      obtain ⟨record, hrecord, rfl⟩ := id_build.mp ha
      obtain ⟨p, hp, hk⟩ := (mem_parentsAt_iff hrecord).mp hjk
      have hget := (OpLog.mem_walkBack_iff.mp (mem_of_getElem? hrecord)).1
      exact ⟨p, hk, hreach.tail (OpLog.edge_iff.mpr ⟨record, hget, hp⟩)⟩
  · rintro ⟨a, ha, hreach⟩
    induction hreach generalizing i with
    | refl =>
      rw [← pos_build] at ha hb
      obtain rfl := some.inj (ha.symm.trans hb)
      exact .refl
    | @tail c a _ hca ih =>
      -- `c` has a record, since it has a parent, and the head reaches it
      obtain ⟨record, hget, hp⟩ := OpLog.edge_iff.mp hca
      have hheld : log.get c ≠ none := by simp [hget]
      have hfrom : log.Reach head b := (exists_id_iff.mp ⟨start, hb⟩).1
      obtain ⟨j, hj⟩ := exists_id_iff.mpr ⟨hfrom.trans ‹_›, hheld⟩
      refine (ih hj).tail ?_
      obtain ⟨record', hrecord', hid⟩ := id_build.mp hj
      have hget' := (OpLog.mem_walkBack_iff.mp (mem_of_getElem? hrecord')).1
      rw [hid, hget] at hget'
      obtain rfl := some.inj hget'
      exact (mem_parentsAt_iff hrecord').mpr ⟨a, hp, ha⟩

/-- **A position is ruled out when its op is in the base's ancestry.** -/
theorem excluded_iff (hid : (build log head).id i = some id) :
    (build log head).excluded log base i = true ↔ ∃ b, base = some b ∧ log.Reach b id := by
  have hheld : log.get id ≠ none := (exists_id_iff.mp ⟨i, hid⟩).2
  cases base with
  | none => simp [excluded]
  | some b =>
    simp only [some.injEq, exists_eq_left']
    cases hpos : (build log head).pos b with
    | some start =>
      have hb := pos_build.mp hpos
      have hstart : start ∈ Finset.range (build log head).ids.length :=
        Finset.mem_range.mpr (List.getElem?_eq_some_iff.mp hb).1
      have hclosed : ∀ a ∈ Finset.range (build log head).ids.length,
          ∀ c ∈ (build log head).parentsAt a, c ∈ Finset.range (build log head).ids.length :=
        fun a ha c hc =>
          Finset.mem_range.mpr (lt_of_mem_parentsAt (Finset.mem_range.mp ha) hc)
      simp only [excluded, hpos]
      rw [decide_eq_true_iff, mem_markFrom_iff hclosed hstart (Finset.card_range _).le, reach_rows hb, hid]
      simp
    | none =>
      simp only [excluded, hpos]
      rw [hid, OpLog.map_opId_walkBack, any_some, contains_eq_mem,
        decide_eq_true_iff, mem_walk_iff (OpLog.walk_backIds log b), OpLog.parentsOf_ne_none]
      exact and_iff_left hheld

/-- What `opsSince` keeps of the walk. -/
theorem opsSince_eq (base : Option OpId) : log.opsSince head base = (log.walkBack head none).filter fun record =>
      !decide (∃ b, base = some b ∧ record.opId ∈ log.backIds b) := by
  refine filter_congr fun record _ => ?_
  cases base with
  | none => simp
  | some b => simp [OpLog.map_opId_walkBack]

/-- **The delta is `opsSince`, oldest first.** -/
theorem since_records (base : Option OpId) :
    ((build log head).since log base).map (fun i => (log.walkBack head none)[i]?) =
      (log.opsSince head base).reverse.map some := by
  have hrange : ((List.range (build log head).ids.length).map fun i =>
      (log.walkBack head none)[i]?) = (log.walkBack head none).map some := by
    rw [← length_walkBack]
    refine ext_getElem? fun i => ?_
    by_cases hi : i < (log.walkBack head none).length <;> simp [hi]
  let kept : OperationRecord → Bool := fun record =>
    !decide (∃ b, base = some b ∧ record.opId ∈ log.backIds b)
  have hkept : ∀ i ∈ (List.range (build log head).ids.length).reverse,
      (!(build log head).excluded log base i) = ((log.walkBack head none)[i]?).any kept := by
    intro i hi
    rw [mem_reverse, mem_range] at hi
    obtain ⟨record, hrecord, hid, hget⟩ := exists_record hi
    rw [hrecord]
    show _ = !decide (∃ b, base = some b ∧ record.opId ∈ log.backIds b)
    congr 1
    rw [Bool.eq_iff_iff, excluded_iff hid, decide_eq_true_iff]
    refine exists_congr fun b => and_congr_right fun _ => ?_
    rw [mem_walk_iff (OpLog.walk_backIds log b), OpLog.parentsOf_ne_none]
    simp [hget]
  have hsome : ((fun o : Option OperationRecord => o.any kept) ∘ some) = kept := by
    funext record
    simp
  show ((List.range (build log head).ids.length).reverse.filter _).map _ = _
  rw [filter_congr hkept, opsSince_eq, ← filter_reverse]
  show (List.filter ((fun o => o.any kept) ∘ fun i => (log.walkBack head none)[i]?) _).map _ = _
  rw [← List.filter_map, map_reverse, hrange, ← map_reverse, List.filter_map, hsome]

end Since

/-! ## `topological` is `linearize` -/

section Topological

variable {index : HistoryIndex}

theorem foldl_addEdge (delta : List Nat) (i : Nat) : ∀ (ps : List Nat)
    (edges : (Nat → Nat) × (Nat → List Nat)),
    (∀ k, (ps.foldl (addEdge delta i) edges).1 k =
        edges.1 k + if k = i then ps.countP fun p => decide (p ∈ delta) else 0) ∧
      ∀ p c, ((ps.foldl (addEdge delta i) edges).2 p).count c =
        (edges.2 p).count c + if c = i ∧ p ∈ delta then ps.count p else 0
  | [], edges => by simp
  | q :: ps, edges => by
    obtain ⟨hfst, hsnd⟩ := foldl_addEdge delta i ps (addEdge delta i edges q)
    rw [foldl_cons]
    by_cases hq : q ∈ delta
    · refine ⟨fun k => ?_, fun p c => ?_⟩
      · rw [hfst, countP_cons_of_pos (by simpa using hq)]
        by_cases hk : k = i
        · subst hk
          simp [addEdge, hq]
          omega
        · simp [addEdge, hq, hk]
      · rw [hsnd, count_cons]
        by_cases hp : p = q
        · subst hp
          by_cases hc : c = i
          · subst hc
            simp [addEdge, hq]
            omega
          · simp [addEdge, hq, hc, Ne.symm hc]
        · simp [addEdge, hq, hp, Ne.symm hp]
    · have hsame : addEdge delta i edges q = edges := by simp [addEdge, hq]
      rw [hsame] at hfst hsnd ⊢
      refine ⟨fun k => ?_, fun p c => ?_⟩
      · rw [hfst, countP_cons_of_neg (by simpa using hq)]
      · rw [hsnd, count_cons]
        by_cases hp : q = p
        · subst hp
          simp [hq]
        · simp [hp]

theorem foldl_addEdges (delta : List Nat) : ∀ (l : List Nat) (edges : (Nat → Nat) × (Nat → List Nat)),
    (∀ k, (l.foldl (fun edges i => (index.parentsAt i).foldl (addEdge delta i) edges) edges).1 k =
        edges.1 k + l.count k * (index.parentsAt k).countP fun p => decide (p ∈ delta)) ∧
      ∀ p c, ((l.foldl (fun edges i => (index.parentsAt i).foldl (addEdge delta i) edges) edges).2
          p).count c =
        (edges.2 p).count c + if p ∈ delta then l.count c * (index.parentsAt c).count p else 0
  | [], edges => by simp
  | i :: l, edges => by
    obtain ⟨hfst, hsnd⟩ := foldl_addEdges delta l ((index.parentsAt i).foldl (addEdge delta i) edges)
    obtain ⟨hrow, hrow'⟩ := foldl_addEdge delta i (index.parentsAt i) edges
    rw [foldl_cons]
    refine ⟨fun k => ?_, fun p c => ?_⟩
    · rw [hfst, hrow, count_cons]
      by_cases hk : k = i
      · subst hk
        simp [Nat.add_mul]
        omega
      · simp [hk, Ne.symm hk]
    · rw [hsnd, hrow', count_cons]
      by_cases hc : c = i
      · subst hc
        by_cases hp : p ∈ delta
        · simp [hp, Nat.add_mul]
          omega
        · simp [hp]
      · simp [hc, Ne.symm hc]

variable {delta : List Nat}

/-- In a delta without repetitions an item is counted once for every entry of its row that is in the
delta. -/
theorem edges_fst (hnd : delta.Nodup) (hi : i ∈ delta) :
    (index.edges delta).1 i = (index.parentsAt i).countP fun p => decide (p ∈ delta) := by
  unfold edges
  rw [(foldl_addEdges delta delta _).1, count_eq_one_of_mem hnd hi]
  simp

theorem edges_snd (hnd : delta.Nodup) {p : Nat} (hp : p ∈ delta) (c : Nat) : ((index.edges delta).2 p).count c =
      if c ∈ delta then (index.parentsAt c).count p else 0 := by
  unfold edges
  rw [(foldl_addEdges delta delta _).2, hnd.count]
  split <;> simp

/-- **The earliest-ready order, largest position first, is what `topological` returns**: the order
it is given its delta in does not matter. -/
theorem topological_eq_earliest {rank : Nat → ℕ} (hnd : delta.Nodup)
    (hrank : ∀ x ∈ delta, ∀ y ∈ index.parentsAt x, rank y < rank x) : index.topological delta =
      earliest (blockedBy index.parentsAt) (delta.insertionSort (· ≥ ·)) := by
  have hperm : (delta.insertionSort (· ≥ ·)).Perm delta := perm_insertionSort _ _
  have hmem : ∀ {i}, i ∈ delta.insertionSort (· ≥ ·) ↔ i ∈ delta := hperm.mem_iff
  have hsorted : (delta.insertionSort (· ≥ ·)).Pairwise (· ≥ ·) :=
    pairwise_insertionSort (· ≥ ·) delta
  have hheap : (delta.filter fun i => decide ((index.edges delta).1 i = 0)).insertionSort (· ≥ ·) =
      (delta.insertionSort (· ≥ ·)).filter fun i => decide ((index.edges delta).1 i = 0) := by
    refine List.Perm.eq_of_pairwise' (pairwise_insertionSort (· ≥ ·) _) (hsorted.filter _) ?_
    exact (perm_insertionSort _ _).trans (hperm.filter _).symm
  have hstart : HeapState (· ≥ ·) (delta.insertionSort (· ≥ ·)) index.parentsAt
      (delta.insertionSort (· ≥ ·)) (index.edges delta).1
      ((delta.insertionSort (· ≥ ·)).filter fun i => decide ((index.edges delta).1 i = 0)) := by
    refine ⟨hsorted, hperm.nodup_iff.mpr hnd, fun _ h => h, fun _ hc hcr => absurd hc hcr,
      fun c hc => ?_, rfl⟩
    rw [edges_fst hnd (hmem.mp hc)]
    simp only [hmem]
  unfold topological
  simp only
  rw [hheap]
  refine heapLoop_eq_earliest (fun i hi c => ?_)
    (fun x hx y _ hyx => hrank x (hmem.mp hx) y hyx) _ _ _ _ hstart hperm.length_eq.le
  rw [edges_snd hnd (hmem.mp hi)]
  exact if_congr hmem.symm rfl rfl

/-! ### On a delta of a built index -/

variable {log : OpLog} {head : OpId}

theorem since_sorted (base : Option OpId) : ((build log head).since log base).Pairwise (· > ·) :=
  (pairwise_reverse.mpr pairwise_lt_range).filter _

theorem lt_of_mem_since (h : i ∈ (build log head).since log base) : i < (build log head).ids.length := by
  have := (mem_filter.mp h).1
  rwa [mem_reverse, mem_range] at this

theorem since_nodup (base : Option OpId) : ((build log head).since log base).Nodup :=
  (since_sorted base).imp fun h => Nat.ne_of_gt h

/-- The rows of an acyclic log are ranked. -/
theorem exists_rank_rows (hac : log.Acyclic) (head : OpId) : ∃ rank : Nat → ℕ,
    ∀ x < (build log head).ids.length, ∀ y ∈ (build log head).parentsAt x, rank y < rank x := by
  obtain ⟨rank, hrank⟩ := OpLog.Acyclic.exists_rank hac
  refine ⟨fun i => ((build log head).id i).elim 0 rank, fun x hx y hy => ?_⟩
  obtain ⟨record, hrecord, hid, hget⟩ := exists_record hx
  obtain ⟨p, hp, hy⟩ := (mem_parentsAt_iff hrecord).mp hy
  show ((build log head).id y).elim 0 rank < ((build log head).id x).elim 0 rank
  rw [hid, hy]
  exact hrank _ _ (OpLog.edge_iff.mpr ⟨record, hget, hp⟩)

/-- A delta of any order is sorted from its positions in descending order. -/
theorem topological_of_perm (hac : log.Acyclic) (hperm : delta.Perm ((build log head).since log base)) :
    (build log head).topological delta =
      earliest (blockedBy (build log head).parentsAt) ((build log head).since log base) := by
  obtain ⟨rank, hrank⟩ := exists_rank_rows hac head
  have hsort : delta.insertionSort (· ≥ ·) = (build log head).since log base :=
    List.Perm.eq_of_pairwise' (pairwise_insertionSort (· ≥ ·) _)
      ((since_sorted base).imp Nat.le_of_lt) ((perm_insertionSort _ _).trans hperm)
  rw [topological_eq_earliest (hperm.nodup_iff.mpr (since_nodup base))
    fun x hx => hrank x (lt_of_mem_since (hperm.mem_iff.mp hx)), hsort]

theorem blockedBy_rows (hac : log.Acyclic) {x y : OperationRecord}
    (hx : (log.walkBack head none)[i]? = some x) (hy : (log.walkBack head none)[j]? = some y) :
    blockedBy (build log head).parentsAt j i = OpLog.precedes y x := by
  have hget := (OpLog.mem_walkBack_iff.mp (mem_of_getElem? hx)).1
  rw [Bool.eq_iff_iff]
  unfold blockedBy OpLog.precedes
  rw [contains_eq_mem, decide_eq_true_iff, mem_parentsAt_iff hx, and_eq_true,
    contains_eq_mem, decide_eq_true_iff, bne_iff_ne]
  constructor
  · rintro ⟨p, hp, hj⟩
    obtain ⟨y', hy', rfl⟩ := id_build.mp hj
    obtain rfl := some.inj (hy.symm.trans hy')
    refine ⟨hp, ?_⟩
    -- an operation is not its own parent
    intro hself
    exact hac x.opId (.single (OpLog.edge_iff.mpr ⟨x, hget, hself ▸ hp⟩))
  · rintro ⟨hp, _⟩
    exact ⟨y.opId, hp, id_build.mpr ⟨y, hy, rfl⟩⟩

/-- **The two topological sorts agree**, record for record. -/
theorem topological_records (hac : log.Acyclic) (base : Option OpId) :
    ((build log head).topological ((build log head).since log base)).map (fun i => (log.walkBack head none)[i]?) =
      (OpLog.linearize (log.opsSince head base).reverse).map some := by
  let at? : Nat → Option OperationRecord := fun i => (log.walkBack head none)[i]?
  have hat : ∀ i ∈ (build log head).since log base, ∃ x, at? i = some x := by
    intro i hi
    obtain ⟨record, hrecord, _⟩ := exists_record (lt_of_mem_since hi)
    exact ⟨record, hrecord⟩
  have hnd : ((log.walkBack head none).map OperationRecord.opId).Nodup := by
    rw [OpLog.map_opId_walkBack]
    exact OpLog.nodup_backIds log head
  have hinj : ∀ i ∈ (build log head).since log base, ∀ j ∈ (build log head).since log base,
      at? i = at? j → i = j := by
    intro i hi j _ hij
    obtain ⟨x, hx⟩ := hat i hi
    have hpos : ∀ k, at? k = some x → OpLog.indexOf (log.walkBack head none) x.opId = some k :=
      fun k hk => (OpLog.indexOf_eq_some_iff hnd).mpr ⟨x, hk, rfl⟩
    exact some.inj ((hpos i hx).symm.trans (hpos j (hij ▸ hx)))
  have hblocks : ∀ j ∈ (build log head).since log base, ∀ i ∈ (build log head).since log base,
      blockedBy (build log head).parentsAt j i = OpLog.precedesAt (at? j) (at? i) := by
    intro j hj i hi
    obtain ⟨x, hx⟩ := hat i hi
    obtain ⟨y, hy⟩ := hat j hj
    rw [hx, hy]
    exact blockedBy_rows hac hx hy
  have hsince : (log.opsSince head base).Sublist (log.walkBack head none) := by
    exact filter_sublist
  have hnd' : ((log.opsSince head base).reverse.map OperationRecord.opId).Nodup := by
    rw [map_reverse, nodup_reverse]
    exact hnd.sublist (hsince.map _)
  rw [topological_of_perm hac (List.Perm.refl _), OpLog.linearize_eq_earliest hnd', earliest_congr hblocks]
  show (earliest (fun y x => OpLog.precedesAt (at? y) (at? x)) _).map at? = _
  rw [← earliest_map hinj, since_records, earliest_map fun _ _ _ _ h => some.inj h]
  rfl

end Topological

/-! ## The two linearizers agree -/

/-- No op of the list has a later one among its parents. -/
def ParentsFirst (log : OpLog) (ids : List OpId) : Prop :=
  ids.Pairwise fun earlier later => ¬ Edge log.parentsOf earlier later

section Agree

variable {log : OpLog} {head : OpId}

variable {positions : List Nat}

theorem map_id_of_records {records : List OperationRecord}
    (h : positions.map (fun i => (log.walkBack head none)[i]?) = records.map some) :
    positions.map (build log head).id = records.map fun record => some record.opId := by
  have hid : (build log head).id =
      Option.map OperationRecord.opId ∘ fun i => (log.walkBack head none)[i]? := by
    funext i
    exact List.getElem?_map
  rw [hid, ← List.map_map, h, List.map_map]
  rfl

theorem blockedBy_iff {a b : OpId} (ha : (build log head).id i = some a) (hb : (build log head).id j = some b) :
    blockedBy (build log head).parentsAt j i = true ↔ Edge log.parentsOf a b := by
  obtain ⟨record, hrecord, rfl⟩ := id_build.mp ha
  have hget := (OpLog.mem_walkBack_iff.mp (mem_of_getElem? hrecord)).1
  unfold blockedBy
  rw [contains_eq_mem, decide_eq_true_iff, mem_parentsAt_iff hrecord, OpLog.edge_iff, hb, hget]
  simp

/-- Parents first, said of positions. -/
theorem parentsFirst_iff (h : ∀ i ∈ positions, i < (build log head).ids.length) :
    ParentsFirst log (positions.filterMap (build log head).id) ↔
      positions.Pairwise fun x y => blockedBy (build log head).parentsAt y x = false := by
  have hid : ∀ i ∈ positions, ∃ a, (build log head).id i = some a := by
    intro i hi
    obtain ⟨record, _, hid, _⟩ := exists_record (h i hi)
    exact ⟨record.opId, hid⟩
  unfold ParentsFirst
  rw [pairwise_filterMap]
  constructor
  · refine List.Pairwise.imp_of_mem fun {x y} hx hy hp => ?_
    obtain ⟨a, ha⟩ := hid x hx
    obtain ⟨b, hb⟩ := hid y hy
    rw [eq_false_iff, Ne, blockedBy_iff ha hb]
    exact hp a ha b hb
  · refine List.Pairwise.imp fun {x y} hp a ha b hb => ?_
    rw [← blockedBy_iff ha hb, hp]
    simp

theorem topological_perm (hac : log.Acyclic) (base : Option OpId) :
    ((build log head).topological ((build log head).since log base)).Perm ((build log head).since log base) := by
  rw [topological_of_perm hac (List.Perm.refl _)]
  exact earliest_perm _

/-- **A delta's topological order lists parents first.** -/
theorem parentsFirst_topological (hac : log.Acyclic) (base : Option OpId) :
    ParentsFirst log (((build log head).topological ((build log head).since log base)).filterMap
      (build log head).id) := by
  obtain ⟨rank, hrank⟩ := exists_rank_rows hac head
  rw [parentsFirst_iff fun i hi => lt_of_mem_since ((topological_perm hac base).mem_iff.mp hi),
    topological_of_perm hac (List.Perm.refl _)]
  refine (@earliest_ordered _ _ _ _ rank fun x hx y _ hyx => ?_).1
  apply hrank x (lt_of_mem_since hx) y
  simpa [blockedBy] using hyx

theorem mem_filterMap_id_iff (hperm : positions.Perm ((build log head).since log base)) :
    id ∈ positions.filterMap (build log head).id ↔
      (log.Reach head id ∧ log.get id ≠ none) ∧ ∀ b, base = some b → ¬ log.Reach b id := by
  rw [mem_filterMap, ← exists_id_iff]
  have hmem : ∀ i, (build log head).id i = some id →
      (i ∈ positions ↔ ∀ b, base = some b → ¬ log.Reach b id) := by
    intro i hid
    have hi : i < (build log head).ids.length := (List.getElem?_eq_some_iff.mp hid).1
    rw [hperm.mem_iff]
    show i ∈ (List.range (build log head).ids.length).reverse.filter _ ↔ _
    rw [mem_filter, mem_reverse, not_eq_true', eq_false_iff, Ne, excluded_iff hid]
    simp [hi]
  constructor
  · rintro ⟨i, hi, hid⟩
    exact ⟨⟨i, hid⟩, (hmem i hid).mp hi⟩
  · rintro ⟨⟨i, hid⟩, hout⟩
    exact ⟨i, (hmem i hid).mpr hout, hid⟩

/-- **The two linearizers agree.** Of any head and base, held or not: the index lists the delta the
log lists; its topological order is the log's; that order lists the delta's ops, each after its
parents, leaves a delta alone that is so ordered already, and is not changed by being taken
again. -/
theorem linearizers_agree (hac : log.Acyclic) (base : Option OpId) :
    let index := build log head
    let delta := index.since log base
    let reversed := (log.opsSince head base).reverse
    delta.map index.id = (reversed.map fun record => some record.opId) ∧
      (index.topological delta).map index.id =
        ((OpLog.linearize reversed).map fun record => some record.opId) ∧
      (index.topological delta).Perm delta ∧
      ParentsFirst log ((index.topological delta).filterMap index.id) ∧
      (ParentsFirst log (delta.filterMap index.id) → index.topological delta = delta) ∧
      index.topological (index.topological delta) = index.topological delta := by
  intro index delta reversed
  obtain ⟨rank, hrank⟩ := exists_rank_rows hac head
  have htopo : index.topological delta = earliest (blockedBy index.parentsAt) delta :=
    topological_of_perm hac (List.Perm.refl _)
  refine ⟨map_id_of_records (since_records base), map_id_of_records (topological_records hac base),
    topological_perm hac base, parentsFirst_topological hac base, fun hfirst => ?_, ?_⟩
  · rw [htopo]
    refine earliest_of_ordered ⟨(parentsFirst_iff fun i => lt_of_mem_since).mp hfirst, ?_⟩
    intro x hx
    -- an op is not in its own row
    by_contra hself
    rw [not_eq_false] at hself
    have hrow : x ∈ index.parentsAt x := by simpa [blockedBy] using hself
    exact Nat.lt_irrefl _ (hrank x (lt_of_mem_since hx) x hrow)
  · rw [topological_of_perm hac (topological_perm hac base), htopo]

end Agree

/-- A merge of an op with its own child: the reversed walk lists the child first. -/
def unevenLog : OpLog := OpLog.ofRecords
  [⟨"g", .v1, .new (.addType "f" "s1" none) [], .create "f" "s1"⟩,
    ⟨"a", .v1, .new (.modifyType "f" "s1" "s2" none) ["g"], .replace "f" "s1" "s2"⟩,
    ⟨"b", .v1, .new (.modifyType "f" "s2" "s3" none) ["a"], .replace "f" "s2" "s3"⟩,
    ⟨"m", .v1, .new (.merge 0) ["a", "b"], .merge ∅⟩]

/-- Its delta from the first op is reordered, by both sorts alike. -/
theorem linearizers_agree_unevenLog :
    let index := build unevenLog "m"
    let reversed := (unevenLog.opsSince "m" (some "g")).reverse
    reversed.map OperationRecord.opId = ["b", "a", "m"] ∧
      (index.topological (index.since unevenLog (some "g"))).map index.id =
        (OpLog.linearize reversed).map fun record => some record.opId :=
  ⟨by decide, (linearizers_agree (OpLog.acyclic_ofRecords (by decide) (by decide)) (some "g")).2.1⟩

end HistoryIndex

end LexLang.Vcs
