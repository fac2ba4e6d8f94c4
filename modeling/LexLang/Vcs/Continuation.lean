/-
# LexLang.Vcs.Continuation — replaying on top of a head already replayed

`walkForwardSince` cuts the walk at `since`; `continuesFrom` then asks, with a depth-first search
over an explicit stack, whether the records found are exactly what lies above `since`. This module
proves what that answer is worth (`walkForward_eq_append`): in an acyclic log the full replay order
of `head` is the full replay order of `since` followed by the linearized records.
-/
import LexLang.Vcs.ReplayOrder

namespace LexLang.Vcs

open LexLang.Graph
open Function List Option Relation.ReflTransGen

namespace OpLog

/-! ## The scan of one record's parents -/

section Search

variable {records : List OperationRecord} {since : OpId}

/-- **What a scan that does not stop has found**: every parent is `since`, or a record known to
descend from it, or a record not yet visited, which it has pushed. -/
theorem scanParents_spec {marks : Nat → Mark} : ∀ (parents : List OpId) (scan scan' : ParentScan),
    scanParents records since marks parents scan = some scan' →
    ∃ pushed, scan'.stack = pushed ++ scan.stack ∧ scan'.pending = (scan.pending || !pushed.isEmpty) ∧
      ∀ p ∈ parents, p = since ∨ ∃ j, indexOf records p = some j ∧ (marks j = .descends ∨ j ∈ pushed)
  | [], scan, scan', h => by
    obtain rfl := some.inj h
    exact ⟨[], rfl, by simp, by simp⟩
  | p :: parents, scan, scan', h => by
    unfold scanParents at h
    by_cases hp : p = since
    · rw [if_pos hp] at h
      obtain ⟨pushed, hstack, hpend, hall⟩ := scanParents_spec parents _ _ h
      exact ⟨pushed, hstack, hpend, forall_mem_cons.mpr ⟨.inl hp, hall⟩⟩
    · rw [if_neg hp] at h
      cases hj : indexOf records p with
      | none =>
        rw [hj] at h
        cases h
      | some j =>
        rw [hj] at h
        simp only at h
        cases hm : marks j with
        | inProgress | apart =>
          rw [hm] at h
          cases h
        | descends =>
          rw [hm] at h
          obtain ⟨pushed, hstack, hpend, hall⟩ := scanParents_spec parents _ _ h
          exact ⟨pushed, hstack, hpend, forall_mem_cons.mpr ⟨.inr ⟨j, hj, .inl hm⟩, hall⟩⟩
        | unvisited =>
          rw [hm] at h
          obtain ⟨pushed, hstack, hpend, hall⟩ := scanParents_spec parents _ _ h
          refine ⟨pushed ++ [j], by simp [hstack], by simp [hpend], forall_mem_cons.mpr
            ⟨.inr ⟨j, hj, .inr (by simp)⟩, fun q hq => ?_⟩⟩
          rcases hall q hq with hq | ⟨k, hk, hk' | hk'⟩
          · exact .inl hq
          · exact .inr ⟨k, hk, .inl hk'⟩
          · exact .inr ⟨k, hk, .inr (mem_append_left _ hk')⟩

/-! ## The search is sound -/

/-- **The search's invariant**: what is marked `descends` has parents, each of them `since` or marked
`descends`; what is marked `apart` has no parents. -/
structure Marked (records : List OperationRecord) (since : OpId) (marks : Nat → Mark) : Prop where
  descends : ∀ i, marks i = .descends → parentsAt records i ≠ [] ∧
    ∀ p ∈ parentsAt records i, p = since ∨ ∃ j, indexOf records p = some j ∧ marks j = .descends
  apart : ∀ i, marks i = .apart → parentsAt records i = []

/-- Marking a record in progress, or done for a good reason, keeps the invariant. -/
theorem Marked.update {marks : Nat → Mark} (h : Marked records since marks) {i : Nat} {m : Mark}
    (hi : ¬ (marks i).done = true) (hdescends : m = .descends → parentsAt records i ≠ [] ∧ ∀ p ∈ parentsAt records i,
      p = since ∨ ∃ j, indexOf records p = some j ∧ marks j = .descends)
    (hapart : m = .apart → parentsAt records i = []) : Marked records since (Function.update marks i m) := by
  have hkeep : ∀ j, marks j = .descends → Function.update marks i m j = .descends := by
    intro j hj
    have hji : j ≠ i := by
      rintro rfl
      exact hi (by rw [hj]; rfl)
    rwa [update_of_ne hji]
  have hwiden : ∀ k, (∀ p ∈ parentsAt records k, p = since ∨
      ∃ j, indexOf records p = some j ∧ marks j = .descends) →
      ∀ p ∈ parentsAt records k, p = since ∨
        ∃ j, indexOf records p = some j ∧ Function.update marks i m j = .descends := by
    intro k hk p hp
    rcases hk p hp with hs | ⟨j, hj, hmj⟩
    · exact .inl hs
    · exact .inr ⟨j, hj, hkeep j hmj⟩
  constructor
  · intro k hk
    by_cases hki : k = i
    · subst hki
      rw [update_self] at hk
      exact ⟨(hdescends hk).1, hwiden k (hdescends hk).2⟩
    · rw [update_of_ne hki] at hk
      exact ⟨(h.descends k hk).1, hwiden k (h.descends k hk).2⟩
  · intro k hk
    by_cases hki : k = i
    · subst hki
      rw [update_self] at hk
      exact hapart hk
    · rw [update_of_ne hki] at hk
      exact h.apart k hk

/-- What a search that does not stop early leaves: the invariant, every mark made before, and every
record of its stack done with. -/
theorem continuesLoop_sound : ∀ (fuel : Nat) (marks marks' : Nat → Mark) (stack : List Nat),
    continuesLoop records since fuel marks stack = some marks' → Marked records since marks →
    Marked records since marks' ∧ (∀ i, (marks i).done = true → marks' i = marks i) ∧
      ∀ i ∈ stack, (marks' i).done = true
  | 0, marks, marks', [], h, hinv | _ + 1, marks, marks', [], h, hinv => by
    obtain rfl : marks = marks' := by simpa [continuesLoop] using h
    exact ⟨hinv, fun _ _ => rfl, by simp⟩
  | 0, _, _, _ :: _, h, _ => by simp [continuesLoop] at h
  | fuel + 1, marks, marks', i :: stack, h, hinv => by
    unfold continuesLoop at h
    -- in every branch that goes on, `marks'` comes from marks that agree on what was done
    have hchain : ∀ {m : Mark} {stack' : List Nat}, ¬ (marks i).done = true →
        Marked records since (Function.update marks i m) →
        continuesLoop records since fuel (Function.update marks i m) stack' = some marks' →
        (∀ j ∈ i :: stack, j ∈ stack' ∨ (j = i ∧ m.done = true)) →
        Marked records since marks' ∧ (∀ j, (marks j).done = true → marks' j = marks j) ∧
          ∀ j ∈ i :: stack, (marks' j).done = true := by
      intro m stack' hi hinv' hrun hcover
      obtain ⟨hinv'', hmono, hdone⟩ := continuesLoop_sound fuel _ _ _ hrun hinv'
      refine ⟨hinv'', ?_, ?_⟩
      · intro j hj
        have hji : j ≠ i := by
          rintro rfl
          exact hi hj
        rw [hmono j (by rwa [update_of_ne hji]), update_of_ne hji]
      · intro j hj
        rcases hcover j hj with hj | ⟨rfl, hm⟩
        · exact hdone j hj
        · rw [hmono j (by rwa [update_self]), update_self]
          exact hm
    by_cases hi : (marks i).done = true
    · rw [if_pos hi] at h
      obtain ⟨hinv', hmono, hdone⟩ := continuesLoop_sound fuel _ _ _ h hinv
      refine ⟨hinv', hmono, ?_⟩
      intro j hj
      rcases mem_cons.mp hj with rfl | hj
      · rw [hmono j hi]
        exact hi
      · exact hdone j hj
    · rw [if_neg hi] at h
      by_cases hempty : (parentsAt records i).isEmpty = true
      · rw [if_pos hempty] at h
        refine hchain hi (hinv.update hi (by simp) fun _ => List.isEmpty_iff.mp hempty) h ?_
        intro j hj
        rcases mem_cons.mp hj with rfl | hj
        · exact .inr ⟨rfl, rfl⟩
        · exact .inl hj
      · rw [if_neg hempty] at h
        simp only at h
        split at h
        · cases h
        · rename_i scan hscan
          obtain ⟨pushed, hstack, hpend, hall⟩ := scanParents_spec _ _ _ hscan
          by_cases hp : scan.pending = true
          · rw [if_pos hp] at h
            refine hchain hi (hinv.update hi (by simp) (by simp)) h ?_
            intro j hj
            exact .inl (hstack ▸ mem_append_right _ hj)
          · rw [if_neg hp] at h
            split at h
            · rw [update_idem] at h
              refine hchain hi (hinv.update hi (fun _ => ⟨?_, ?_⟩) (by simp)) h ?_
              · exact fun hnil => hempty (List.isEmpty_iff.mpr hnil)
              · intro p hpar
                rcases hall p hpar with hs | ⟨j, hj, hm | hm⟩
                · exact .inl hs
                · have hji : j ≠ i := by
                    rintro rfl
                    simp at hm
                  rw [update_of_ne hji] at hm
                  exact .inr ⟨j, hj, hm⟩
                · have hnil : pushed = [] := by simpa [hpend] using hp
                  simp [hnil] at hm
              · intro j hj
                rcases mem_cons.mp hj with rfl | hj
                · exact .inr ⟨rfl, rfl⟩
                · exact .inl hj
            · cases h

/-- **The search is sound.** When it answers yes, every parent of a record is `since` or a record
that has parents itself. -/
theorem continuesFrom_sound (h : continuesFrom records since = true) {i : Nat}
    {record : OperationRecord} (hi : records[i]? = some record) : ∀ p ∈ record.op.parents, p = since ∨
      ∃ (j : Nat) (y : OperationRecord), records[j]? = some y ∧ y.opId = p ∧ y.op.parents ≠ [] := by
  have hfold : ∀ (starts : List Nat) (marks marks' : Nat → Mark), Marked records since marks →
      starts.foldlM (fun marks start => continuesLoop records since (continuesFuel records) marks
        [start]) marks = some marks' →
      Marked records since marks' ∧ (∀ j, (marks j).done = true → marks' j = marks j) ∧
        ∀ j ∈ starts, (marks' j).done = true := by
    intro starts
    induction starts with
    | nil =>
      intro marks marks' hinv hrun
      obtain rfl : marks = marks' := by simpa using hrun
      exact ⟨hinv, fun _ _ => rfl, by simp⟩
    | cons start starts ih =>
      intro marks marks' hinv hrun
      obtain ⟨marks₁, hloop, hrest⟩ := bind_eq_some_iff.mp hrun
      obtain ⟨hinv₁, hmono₁, hdone₁⟩ := continuesLoop_sound _ _ _ _ hloop hinv
      obtain ⟨hinv₂, hmono₂, hdone₂⟩ := ih marks₁ marks' hinv₁ hrest
      refine ⟨hinv₂, ?_, ?_⟩
      · intro j hj
        have hj₁ := hmono₁ j hj
        rw [hmono₂ j (hj₁ ▸ hj), hj₁]
      · intro j hj
        rcases mem_cons.mp hj with rfl | hj
        · have hj₁ := hdone₁ j mem_cons_self
          rw [hmono₂ j hj₁]
          exact hj₁
        · exact hdone₂ j hj
  obtain ⟨marks, hmarks⟩ := isSome_iff_exists.mp h
  have hstart : Marked records since fun _ => Mark.unvisited := ⟨by simp, by simp⟩
  obtain ⟨hinv, _, hdone⟩ := hfold _ _ _ hstart hmarks
  have hparents : parentsAt records i = record.op.parents := by simp [parentsAt, hi]
  have hlt : i < records.length := (List.getElem?_eq_some_iff.mp hi).1
  intro p hp
  rw [← hparents] at hp
  cases hm : marks i with
  | unvisited | inProgress =>
    have := hdone i (mem_range.mpr hlt)
    rw [hm] at this
    cases this
  | apart =>
    rw [hinv.apart i hm] at hp
    cases hp
  | descends =>
    rcases (hinv.descends i hm).2 p hp with hs | ⟨j, hj, hmj⟩
    · exact .inl hs
    · obtain ⟨y, hy, hyp⟩ := of_indexOf_eq_some hj
      refine .inr ⟨j, y, hy, hyp, ?_⟩
      have hne := (hinv.descends j hmj).1
      simpa [parentsAt, hy] using hne

end Search

/-! ## The walk cut at `since` -/

variable {a : OpId} {recs : List OperationRecord}

section Since

variable {log : OpLog} {head since : OpId}

/-- The DAG with `since` not held: what the bounded walk sees. -/
def cutAt (log : OpLog) (since : OpId) (id : OpId) : Option (List OpId) :=
  if id = since then none else log.parentsOf id

/-- The bounded loop emits the records of the cut walk, and finds `since` only where it can be
reached. -/
theorem walkSinceLoop_eq : ∀ (fuel : Nat) (seen : Finset OpId) (frontier : List OpId)
    (found : Bool) (out : List OperationRecord),
    ∃ found', log.walkSinceLoop since fuel seen frontier found out =
        (found', out ++ (bfs (log.cutAt since) fuel seen frontier).filterMap log.get) ∧
      (found' = true → found = true ∨
        ∃ id ∈ frontier, Graph.Reach (log.cutAt since) id since)
  | 0, _, _, found, out => ⟨found, by simp [walkSinceLoop, bfs], .inl⟩
  | _ + 1, _, [], found, out => ⟨found, by simp [walkSinceLoop, bfs], .inl⟩
  | fuel + 1, seen, id :: frontier, found, out => by
    have hwiden : (∃ id ∈ frontier, Graph.Reach (log.cutAt since) id since) →
        ∃ id' ∈ id :: frontier, Graph.Reach (log.cutAt since) id' since := by
      rintro ⟨b, hb, hreach⟩
      exact ⟨b, mem_cons_of_mem _ hb, hreach⟩
    unfold walkSinceLoop bfs
    by_cases hseen : id ∈ seen
    · obtain ⟨found', heq, hfound⟩ := walkSinceLoop_eq fuel seen frontier found out
      exact ⟨found', by rw [if_pos hseen, if_pos hseen, heq], fun h => (hfound h).imp_right hwiden⟩
    rw [if_neg hseen, if_neg hseen]
    by_cases hid : id = since
    · obtain ⟨found', heq, _⟩ := walkSinceLoop_eq fuel (insert id seen) frontier true out
      refine ⟨found', ?_, fun _ => .inr ⟨id, mem_cons_self, ?_⟩⟩
      · rw [if_pos hid]
        simp only [cutAt, if_pos hid]
        exact heq
      · rw [hid]
    · rw [if_neg hid]
      simp only [cutAt, if_neg hid]
      cases hget : log.get id with
      | none =>
        obtain ⟨found', heq, hfound⟩ := walkSinceLoop_eq fuel (insert id seen) frontier found out
        refine ⟨found', ?_, fun h => (hfound h).imp_right hwiden⟩
        simp only [parentsOf, hget]
        exact heq
      | some record =>
        obtain ⟨found', heq, hfound⟩ := walkSinceLoop_eq fuel (insert id seen)
          (frontier ++ record.op.parents.filter fun p => decide (p ∉ insert id seen)) found
          (out ++ [record])
        refine ⟨found', ?_, fun h => (hfound h).imp_right ?_⟩
        · simp only [parentsOf, hget, map_some, filterMap_cons]
          rw [heq, append_assoc]
          rfl
        · rintro ⟨b, hb, hreach⟩
          rcases mem_append.mp hb with hb | hb
          · exact ⟨b, mem_cons_of_mem _ hb, hreach⟩
          · refine ⟨id, mem_cons_self, Relation.ReflTransGen.head ?_ hreach⟩
            refine ⟨record.op.parents, ?_, (mem_filter.mp hb).1⟩
            simp [cutAt, hid, parentsOf, hget]

/-- The bounded walk fits in the fuel of the full one. -/
theorem walkCost_cutAt_le (log : OpLog) (head since : OpId) :
    walkCost (log.cutAt since) log.ids ∅ [head] ≤ log.walkFuel := by
  refine le_trans ?_ (walkCost_le_walkFuel head)
  refine Nat.add_le_add_left (Finset.sum_le_sum fun id _ => ?_) _
  unfold cutAt
  split
  · exact Nat.zero_le _
  · exact le_rfl

theorem edge_of_edge_cutAt {b : OpId} (h : Edge (log.cutAt since) a b) : a ≠ since ∧ Edge log.parentsOf a b := by
  obtain ⟨ps, hps, hb⟩ := h
  unfold cutAt at hps
  split at hps
  · cases hps
  · exact ⟨‹_›, ps, hps, hb⟩

theorem reach_of_reach_cutAt {b : OpId} (h : Graph.Reach (log.cutAt since) a b) : log.Reach a b :=
  h.lift id fun _ _ he => (edge_of_edge_cutAt he).2

/-- **What `walkForwardSince` returns**: the records of the cut walk, oldest first, and only if the
walk meets `since`. -/
theorem walkForwardSince_eq_some (hne : head ≠ since) (h : log.walkForwardSince head since = some recs) :
    ∃ cut, Walk (log.cutAt since) ∅ [head] cut ∧ recs = (cut.filterMap log.get).reverse ∧
      Graph.Reach (log.cutAt since) head since := by
  obtain ⟨found, heq, hfound⟩ :=
    @walkSinceLoop_eq log since log.walkFuel ∅ [head] false []
  unfold walkForwardSince at h
  rw [if_neg hne, heq] at h
  simp only [nil_append] at h
  split at h
  · rename_i hf
    refine ⟨bfs (log.cutAt since) log.walkFuel ∅ [head], ?_, (some.inj h).symm, ?_⟩
    · refine walk_bfs _ (fun a ha => mem_ids.mpr (parentsOf_ne_none.mp fun hnone => ha ?_)) _ _ _
        (walkCost_cutAt_le log head since)
      unfold cutAt
      split
      · rfl
      · exact hnone
    · rcases hfound hf with hff | ⟨id, hid, hreach⟩
      · cases hff
      · rwa [mem_singleton.mp hid] at hreach
  · cases h

end Since

/-! ## The records above `since` -/

/-- **`cut` is exactly what lies above `since` on the way down from `head`**: the cut walk emits it,
its parents stay in it or are `since`, and each of its records has a parent. -/
structure Above (log : OpLog) (head since : OpId) (cut : List OpId) : Prop where
  walk : Walk (log.cutAt since) ∅ [head] cut
  closed : ∀ a ∈ cut, ∀ b, Edge log.parentsOf a b → b = since ∨ b ∈ cut
  rooted : ∀ a ∈ cut, ∃ b, Edge log.parentsOf a b

section Above

variable {log : OpLog} {head since : OpId} {cut : List OpId}

theorem mem_cut_ne_since (hwalk : Walk (log.cutAt since) ∅ [head] cut) (ha : a ∈ cut) : a ≠ since := by
  rintro rfl
  exact hwalk.held a ha (by simp [cutAt])

theorem get_of_mem_cut (hwalk : Walk (log.cutAt since) ∅ [head] cut) (ha : a ∈ cut) : log.get a ≠ none := by
  intro hnone
  have hne := mem_cut_ne_since hwalk ha
  exact hwalk.held a ha (by simp [cutAt, parentsOf, hnone])

/-- **A yes from `continuesFrom` says the records are what lies above `since`.** -/
theorem above_of_continuesFrom (hne : head ≠ since) (hwalk : Walk (log.cutAt since) ∅ [head] cut)
    (hfound : Graph.Reach (log.cutAt since) head since)
    (h : continuesFrom (cut.filterMap log.get).reverse since = true) : Above log head since cut := by
  have hat : ∀ a ∈ cut, ∃ (i : Nat) (record : OperationRecord), log.get a = some record ∧
      (cut.filterMap log.get).reverse[i]? = some record := by
    intro a ha
    obtain ⟨record, hrecord⟩ := ne_none_iff_exists'.mp (get_of_mem_cut hwalk ha)
    obtain ⟨i, hi⟩ := mem_iff_getElem?.mp
      (mem_reverse.mpr (mem_filterMap.mpr ⟨a, ha, hrecord⟩))
    exact ⟨i, record, hrecord, hi⟩
  have hmem : ∀ {j : Nat} {y : OperationRecord},
      (cut.filterMap log.get).reverse[j]? = some y → y.opId ∈ cut ∧ log.get y.opId = some y := by
    intro j y hy
    obtain ⟨a, ha, hay⟩ := mem_filterMap.mp (mem_reverse.mp (mem_of_getElem? hy))
    rw [get_opId hay]
    exact ⟨ha, hay⟩
  refine ⟨hwalk, ?_, ?_⟩
  · intro a ha b hab
    obtain ⟨i, record, hrecord, hi⟩ := hat a ha
    obtain ⟨record', hrecord', hb⟩ := edge_iff.mp hab
    obtain rfl := some.inj (hrecord.symm.trans hrecord')
    rcases continuesFrom_sound h hi b hb with hs | ⟨j, y, hy, rfl, _⟩
    · exact .inl hs
    · exact .inr (hmem hy).1
  · -- `head` has a parent because the walk got to `since`; any other record is a record's parent
    intro a ha
    have hreach := ((mem_walk_iff hwalk a).mp ha).1
    rcases cases_tail hreach with rfl | ⟨c, hc, hca⟩
    · rcases cases_head hfound with rfl | ⟨b, hb, _⟩
      · exact absurd rfl hne
      · exact ⟨b, (edge_of_edge_cutAt hb).2⟩
    · have hcut : c ∈ cut := by
        refine (mem_walk_iff hwalk c).mpr ⟨hc, ?_⟩
        obtain ⟨ps, hps, _⟩ := hca
        simp [hps]
      obtain ⟨i, record, hrecord, hi⟩ := hat c hcut
      obtain ⟨record', hrecord', hb⟩ := edge_iff.mp (edge_of_edge_cutAt hca).2
      obtain rfl := some.inj (hrecord.symm.trans hrecord')
      rcases continuesFrom_sound h hi a hb with hs | ⟨j, y, hy, rfl, hparents⟩
      · exact absurd hs (mem_cut_ne_since hwalk ha)
      · obtain ⟨b, hb⟩ := exists_mem_of_ne_nil _ hparents
        exact ⟨b, edge_iff.mpr ⟨y, (hmem hy).2, hb⟩⟩

namespace Above

variable (h : Above log head since cut)
include h

theorem descends (hac : log.Acyclic) : ∀ a ∈ cut, log.Reach a since := by
  obtain ⟨rank, hrank⟩ := Acyclic.exists_rank hac
  intro a
  induction hn : rank a using Nat.strong_induction_on generalizing a with
  | _ n ih =>
    intro ha
    obtain ⟨b, hab⟩ := h.rooted a ha
    rcases h.closed a ha b hab with rfl | hb
    · exact Relation.ReflTransGen.single hab
    · exact Relation.ReflTransGen.head hab (ih (rank b) (hn ▸ hrank a b hab) b rfl hb)

theorem not_ancestor (hac : log.Acyclic) : ∀ a ∈ cut, ¬ log.Reach since a := by
  intro a ha hanc
  rcases cases_head (h.descends hac a ha) with rfl | ⟨b, hab, hb⟩
  · exact mem_cut_ne_since h.walk ha rfl
  · exact hac a (Relation.TransGen.head' hab (hb.trans hanc))

theorem mem_or_ancestor (hne : head ≠ since)
    (ha : log.Reach head a) (hheld : log.get a ≠ none) : a ∈ cut ∨ log.Reach since a := by
  have hall : ∀ b, log.Reach head b → b ∈ cut ∨ log.Reach since b ∨ log.get b = none := by
    intro b hb
    induction hb with
    | refl =>
      by_cases hget : log.get head = none
      · exact .inr (.inr hget)
      · refine .inl ((mem_walk_iff h.walk head).mpr ⟨Relation.ReflTransGen.refl, ?_⟩)
        rw [cutAt, if_neg hne]
        exact parentsOf_ne_none.mpr hget
    | @tail b c _ hbc ih =>
      rcases ih with hb | hb | hb
      · rcases h.closed b hb c hbc with rfl | hc
        · exact .inr (.inl Relation.ReflTransGen.refl)
        · exact .inl hc
      · exact .inr (.inl (hb.tail hbc))
      · exact absurd hbc (not_edge_of_none (by simp [parentsOf, hb]))
  rcases hall a ha with h | h | h
  · exact .inl h
  · exact .inr h
  · exact absurd h hheld

open Classical in
/-- The full walk from `head`, less what `since` already has, is the cut walk. -/
theorem filter_not_ancestor (hac : log.Acyclic) :
    ((log.backIds head).filter fun a => decide (¬ log.Reach since a)) = cut := by
  have hfull := (walk_backIds log head).filter_upper (fun a => ¬ log.Reach since a)
    fun a b ha hab hb => ha fun hsa => hb (hsa.tail hab)
  have hcut := h.walk.filter_upper (fun a => ¬ log.Reach since a)
    fun a b ha hab hb => ha fun hsa => hb (hsa.tail (edge_of_edge_cutAt hab).2)
  have hsame : restrict (log.cutAt since) (fun a => ¬ log.Reach since a) =
      restrict log.parentsOf fun a => ¬ log.Reach since a := by
    funext a
    unfold restrict
    split
    · rename_i ha
      have hne : a ≠ since := by
        rintro rfl
        exact ha Relation.ReflTransGen.refl
      rw [cutAt, if_neg hne]
    · rfl
  have hall : (cut.filter fun a => decide (¬ log.Reach since a)) = cut :=
    filter_eq_self.mpr fun a ha => decide_eq_true (h.not_ancestor hac a ha)
  rw [hsame, hall] at hcut
  exact hfull.unique hcut

theorem head_mem (hne : head ≠ since) (hfound : Graph.Reach (log.cutAt since) head since) : head ∈ cut := by
  refine (mem_walk_iff h.walk head).mpr ⟨Relation.ReflTransGen.refl, ?_⟩
  rcases cases_head hfound with rfl | ⟨b, ⟨ps, hps, _⟩, _⟩
  · exact absurd rfl hne
  · simp [hps]

open Classical in
/-- The part of the full walk that `since` already has is the walk from `since`. -/
theorem filter_ancestor (hac : log.Acyclic) (hne : head ≠ since) (hfound : Graph.Reach (log.cutAt since) head since) :
    ((log.backIds head).filter fun a => decide (log.Reach since a)) = log.backIds since := by
  have hentry : ∀ a ∈ log.backIds head, ¬ log.Reach since a → ∀ b, Edge log.parentsOf a b →
      log.Reach since b → b = since := by
    intro a ha hna b hab hb
    obtain ⟨hreach, hheld⟩ := (mem_walk_iff (walk_backIds log head) a).mp ha
    have hcut : a ∈ cut :=
      (h.mem_or_ancestor hne hreach (parentsOf_ne_none.mp hheld)).resolve_right hna
    rcases h.closed a hcut b hab with hs | hbcut
    · exact hs
    · exact absurd hb (h.not_ancestor hac b hbcut)
  have hhead : ¬ log.Reach since head := h.not_ancestor hac head (h.head_mem hne hfound)
  have hlower := @Walk.filter_lower _ _ _ _ _ _ (log.Reach since) _ since
    (fun _ _ ha hab => ha.tail hab) Relation.ReflTransGen.refl (walk_backIds log head) hentry
    (by simp) (by
      intro a ha hsa
      rw [mem_singleton.mp ha] at hsa
      exact absurd hsa hhead)
  rcases hlower with hnil | hwalk
  · -- nothing of `since`'s history was met, so `since` itself is not held
    have hsince : log.parentsOf since = none := by
      by_contra hheld
      have hmem : since ∈ (log.backIds head).filter fun a => decide (log.Reach since a) := by
        rw [mem_filter]
        refine ⟨(mem_walk_iff (walk_backIds log head) since).mpr
          ⟨reach_of_reach_cutAt hfound, hheld⟩, decide_eq_true Relation.ReflTransGen.refl⟩
      rw [hnil] at hmem
      cases hmem
    rw [hnil]
    exact (Walk.absent (by simp) hsince (.done _)).unique (walk_backIds log since)
  · exact hwalk.unique (walk_backIds log since)

end Above

theorem filterMap_get_filter (log : OpLog) (P : OpId → Bool) (ids : List OpId) : (ids.filter P).filterMap log.get =
      (ids.filterMap log.get).filter fun record => P record.opId := by
  induction ids with
  | nil => rfl
  | cons id ids ih =>
    cases hget : log.get id with
    | none =>
      rw [filterMap_cons, hget, ← ih, filter_cons]
      split
      · rw [filterMap_cons, hget]
      · rfl
    | some record =>
      have hid : record.opId = id := get_opId hget
      rw [filterMap_cons, hget, filter_cons, filter_cons, hid, ← ih]
      split
      · rw [filterMap_cons, hget]
      · rfl

/-- **Replaying on top.** When `continuesFrom` says yes, the replay order of `head` is the replay
order of `since`, then the linearized records above it. -/
theorem walkForward_eq_append (hac : log.Acyclic) (hne : head ≠ since)
    (hrecs : log.walkForwardSince head since = some recs) (hcont : continuesFrom recs since = true) :
    log.walkForward head none = log.walkForward since none ++ linearize recs := by
  classical
  obtain ⟨cut, hwalk, rfl, hfound⟩ := walkForwardSince_eq_some hne hrecs
  have h : Above log head since cut := above_of_continuesFrom hne hwalk hfound hcont
  let D : OperationRecord → Prop := fun record => log.Reach since record.opId
  have hlower : ((log.walkBack head none).reverse.filter fun record => decide (D record)) =
      (log.walkBack since none).reverse := by
    rw [filter_reverse, walkBack_eq, walkBack_eq, ← h.filter_ancestor hac hne hfound, filterMap_get_filter]
  have hupper : ((log.walkBack head none).reverse.filter fun record => !decide (D record)) =
      (cut.filterMap log.get).reverse := by
    rw [filter_reverse, walkBack_eq, ← h.filter_not_ancestor hac, filterMap_get_filter]
    congr 2
    funext record
    simp [D]
  have hnodup : ((cut.filterMap log.get).reverse.map OperationRecord.opId).Nodup := by
    rw [map_reverse, nodup_reverse, map_opId_filterMap_get fun a => get_of_mem_cut hwalk]
    exact hwalk.nodup
  rw [walkForward_eq_earliest, walkForward_eq_earliest, linearize_eq_earliest hnodup, ← hlower, ← hupper]
  have hmem : ∀ {x : OperationRecord}, x ∈ (log.walkBack head none).reverse ↔
      log.get x.opId = some x ∧ log.Reach head x.opId := by
    intro x
    rw [mem_reverse, mem_walkBack_iff]
  cases hsince : log.get since with
  | none =>
    have hnone : log.backIds since = [] :=
      (walk_backIds log since).unique (.absent (by simp) (by simp [parentsOf, hsince]) (.done _))
    have hempty : ((log.walkBack head none).reverse.filter fun record => decide (D record)) =
        [] := by
      rw [hlower, walkBack_eq, hnone]
      rfl
    rw [hempty, earliest_nil, nil_append, filter_eq_self.mpr]
    intro x hx
    have := filter_eq_nil_iff.mp hempty x hx
    simpa using this
  | some root =>
    have hroot : root.opId = since := get_opId hsince
    obtain ⟨rank, hrank⟩ := Acyclic.exists_rank hac
    refine @earliest_split _ precedes _ (fun x => rank x.opId) D root _ _ ?_ ?_ ?_ ?_
    · exact fun x hx y _ hyx => hrank _ _ (edge_of_precedes (hmem.mp hx).1 hyx)
    · exact fun d hd hDd y _ hyd => hDd.tail (edge_of_precedes (hmem.mp hd).1 hyd)
    · -- every other ancestor of `since` is the parent of one
      intro d hd hDd hne'
      rcases cases_tail hDd with hds | ⟨b, hb, hbd⟩
      · refine absurd ?_ hne'
        exact some.inj ((hmem.mp hd).1.symm.trans (hds ▸ hsince))
      · obtain ⟨y, hy, hdy⟩ := edge_iff.mp hbd
        have hyb : y.opId = b := get_opId hy
        refine ⟨y, hmem.mpr ⟨hyb ▸ hy, ?_⟩, ?_, ?_⟩
        · rw [hyb]
          exact (reach_of_reach_cutAt hfound).trans hb
        · show log.Reach since y.opId
          rw [hyb]
          exact hb
        · have hself : d.opId ≠ y.opId := by
            intro he
            rw [hyb] at he
            exact hac b (Relation.TransGen.single (he ▸ hbd))
          simp [precedes, hdy, hself]
    · -- a record above `since` has a parent above it too, or `since` itself
      intro r hr hDr
      have hrcut : r.opId ∈ cut := (h.mem_or_ancestor hne (hmem.mp hr).2
        (by simp [(hmem.mp hr).1])).resolve_right hDr
      obtain ⟨b, hrb⟩ := h.rooted _ hrcut
      obtain ⟨r', hr', hbr⟩ := edge_iff.mp hrb
      obtain rfl := some.inj ((hmem.mp hr).1.symm.trans hr')
      have hself : b ≠ r.opId := by
        rintro rfl
        exact hac _ (Relation.TransGen.single hrb)
      rcases h.closed _ hrcut b hrb with rfl | hbcut
      · right
        simp [precedes, hroot, hbr, hself]
      · left
        obtain ⟨y, hy⟩ := ne_none_iff_exists'.mp (get_of_mem_cut hwalk hbcut)
        have hyb : y.opId = b := get_opId hy
        refine ⟨y, hmem.mpr ⟨hyb ▸ hy, ?_⟩, ?_, ?_⟩
        · rw [hyb]
          exact (hmem.mp hr).2.tail hrb
        · intro hDy
          exact h.not_ancestor hac b hbcut (hyb ▸ hDy)
        · simp [precedes, hyb, hbr, hself]

end Above

end OpLog

end LexLang.Vcs
