/-
# LexLang.Graph.Queue — Kahn's algorithm with a first-in first-out queue, and what its failure means

The loop over a set of keys whose parents may be missing: in-degrees count the parent entries that
are keys, a popped key takes one off each of its children, and a child is queued when its count
reaches zero. An entry listed twice is counted twice and taken off once, so a key with such an entry
never comes out.
-/
import Mathlib.Data.Finset.Max

namespace LexLang.Graph

open List

variable {α : Type*} [DecidableEq α] (keys : List α) (parents : α → List α)

/-! ## The loop -/

/-- Take one off the count of `c`; at zero, queue it. -/
def releaseLast (state : (α → Nat) × List α) (c : α) : (α → Nat) × List α :=
  let indegree := Function.update state.1 c (state.1 c - 1)
  (indegree, if indegree c = 0 then state.2 ++ [c] else state.2)

/-- The keys that list `i` as a parent. -/
def childrenOf (i : α) : List α := keys.filter fun c => (parents c).contains i

/-- Pop the queue until it is empty. -/
def queueLoop : Nat → (α → Nat) → List α → List α → List α
  | 0, _, _, out => out
  | _ + 1, _, [], out => out
  | fuel + 1, indegree, i :: queue, out =>
    let state := (childrenOf keys parents i).foldl releaseLast (indegree, queue)
    queueLoop fuel state.1 state.2 (out ++ [i])

/-- The parent entries of a key that are keys. -/
def presentParents (c : α) : List α := (parents c).filter fun p => decide (p ∈ keys)

/-- **The keys in the order they become ready.** -/
def queueOrder : List α :=
  let indegree := fun c => (presentParents keys parents c).length
  queueLoop keys parents keys.length indegree (keys.filter fun c => decide (indegree c = 0)) []

/-! ## The invariant -/

section Invariant

variable {keys parents}

theorem foldl_releaseLast : ∀ (cs : List α) (state : (α → Nat) × List α), cs.Nodup →
    (∀ c, (cs.foldl releaseLast state).1 c = if c ∈ cs then state.1 c - 1 else state.1 c) ∧
      (cs.foldl releaseLast state).2 =
        state.2 ++ cs.filter fun c => decide (state.1 c - 1 = 0)
  | [], state, _ => by simp
  | a :: cs, state, hnd => by
    rw [nodup_cons] at hnd
    obtain ⟨hfst, hsnd⟩ := foldl_releaseLast cs (releaseLast state a) hnd.2
    have hother : ∀ c, c ≠ a → (releaseLast state a).1 c = state.1 c := fun c hc => by
      simp only [releaseLast, Function.update_of_ne hc]
    have hsame : (cs.filter fun c => decide ((releaseLast state a).1 c - 1 = 0)) =
        cs.filter fun c => decide (state.1 c - 1 = 0) := by
      refine filter_congr fun c hc => ?_
      rw [hother c fun h => hnd.1 (h ▸ hc)]
    rw [foldl_cons]
    refine ⟨fun c => ?_, ?_⟩
    · rw [hfst]
      by_cases hca : c = a
      · subst hca
        simp [hnd.1, releaseLast]
      · simp [hca, hother c hca]
    · rw [hsnd, hsame]
      by_cases ha : state.1 a - 1 = 0
      · rw [filter_cons_of_pos (by simpa using ha)]
        simp [releaseLast, ha]
      · rw [filter_cons_of_neg (by simpa using ha)]
        simp [releaseLast, ha]

/-- Every key of the list comes after all of its parents that are keys. -/
def ParentsBefore (keys : List α) (parents : α → List α) (out : List α) : Prop :=
  ∀ before c after, out = before ++ c :: after → ∀ p ∈ presentParents keys parents c, p ∈ before

/-- **What holds while the queue is worked off.** -/
structure QueueState (keys : List α) (parents : α → List α) (indegree : α → Nat)
    (queue out : List α) : Prop where
  nodup : (out ++ queue).Nodup
  mem : ∀ c ∈ out ++ queue, c ∈ keys
  counts : ∀ c ∈ keys, indegree c + (out.filter fun p => (parents c).contains p).length =
    (presentParents keys parents c).length
  zero : ∀ c ∈ keys, c ∈ out ++ queue ↔ indegree c = 0
  first : ParentsBefore keys parents out
  single : ∀ c ∈ out, (presentParents keys parents c).Nodup

theorem mem_presentParents {c p : α} : p ∈ presentParents keys parents c ↔ p ∈ parents c ∧ p ∈ keys := by
  unfold presentParents
  rw [mem_filter, decide_eq_true_iff]

namespace QueueState

variable {indegree : α → Nat} {queue out : List α}

theorem start (hnd : keys.Nodup) : QueueState keys parents (fun c => (presentParents keys parents c).length)
    (keys.filter fun c => decide ((presentParents keys parents c).length = 0)) [] where
  nodup := hnd.filter _
  mem := fun c hc => (mem_filter.mp hc).1
  counts := by simp
  zero := by
    intro c hc
    simp [hc]
  first := by
    intro before c after h
    simp at h
  single := by simp

variable (h : QueueState keys parents indegree queue out)
include h

/-- What is out among the parents of a key, counted. -/
theorem outParents_subperm (c : α) :
    (out.filter fun p => (parents c).contains p).Subperm (presentParents keys parents c) := by
  apply subperm_of_subset ((nodup_append'.mp h.nodup).1.filter _)
  intro p hp
  rw [mem_filter, contains_eq_mem, decide_eq_true_iff] at hp
  exact mem_presentParents.mpr ⟨hp.2, h.mem p (mem_append_left _ hp.1)⟩

/-- **A key with count zero has all its parents out**, and lists each once. -/
theorem parents_out {c : α} (hc : c ∈ keys) (hzero : indegree c = 0) :
    (presentParents keys parents c).Nodup ∧ ∀ p ∈ presentParents keys parents c, p ∈ out := by
  have hperm : (out.filter fun p => (parents c).contains p).Perm (presentParents keys parents c) := by
    apply (h.outParents_subperm c).perm_of_length_le
    rw [← h.counts c hc]
    omega
  refine ⟨hperm.nodup_iff.mp ((nodup_append'.mp h.nodup).1.filter _), fun p hp => ?_⟩
  exact (mem_filter.mp (hperm.mem_iff.mpr hp)).1

theorem count_pos {c i : α} (hc : c ∈ keys)
    (hi : i ∈ keys) (hic : i ∈ parents c) (hout : i ∉ out) : 0 < indegree c := by
  by_contra hno
  have hzero : indegree c = 0 := by omega
  exact hout ((h.parents_out hc hzero).2 i (mem_presentParents.mpr ⟨hic, hi⟩))

omit h

/-- **One pop keeps the invariant.** -/
theorem pop {i : α} (h : QueueState keys parents indegree (i :: queue) out) (hnd : keys.Nodup) :
    QueueState keys parents ((childrenOf keys parents i).foldl releaseLast (indegree, queue)).1
      ((childrenOf keys parents i).foldl releaseLast (indegree, queue)).2 (out ++ [i]) := by
  have hi : i ∈ keys := h.mem i (by simp)
  have hizero : indegree i = 0 := (h.zero i hi).mp (by simp)
  have hiout : i ∉ out := by
    have := (nodup_append'.mp h.nodup).2.2
    exact fun hmem => this hmem mem_cons_self
  obtain ⟨hsingle, hbefore⟩ := h.parents_out hi hizero
  have hchildren : (childrenOf keys parents i).Nodup := hnd.filter _
  have hmem : ∀ c, c ∈ childrenOf keys parents i ↔ c ∈ keys ∧ i ∈ parents c := by
    intro c
    unfold childrenOf
    rw [mem_filter, contains_eq_mem, decide_eq_true_iff]
  obtain ⟨hfst, hsnd⟩ := foldl_releaseLast (childrenOf keys parents i) (indegree, queue) hchildren
  have hqueued : ∀ c ∈ childrenOf keys parents i, c ∉ out ++ i :: queue := by
    intro c hc hcq
    obtain ⟨hck, hic⟩ := (hmem c).mp hc
    have hpos := h.count_pos hck hi hic hiout
    have := (h.zero c hck).mp hcq
    omega
  have hsplit : out ++ [i] ++ (queue ++
      (childrenOf keys parents i).filter fun c => decide (indegree c - 1 = 0)) =
      (out ++ i :: queue) ++
        (childrenOf keys parents i).filter fun c => decide (indegree c - 1 = 0) := by simp
  rw [hsnd]
  refine ⟨?_, ?_, fun c hc => ?_, fun c hc => ?_, ?_, ?_⟩
  · rw [hsplit]
    refine nodup_append'.mpr ⟨h.nodup, hchildren.filter _, fun c hc hc' => ?_⟩
    exact hqueued c (mem_filter.mp hc').1 hc
  · intro c hc
    rw [hsplit] at hc
    rcases mem_append.mp hc with hc | hc
    · exact h.mem c hc
    · exact ((hmem c).mp (mem_filter.mp hc).1).1
  · rw [hfst, filter_append, length_append, ← h.counts c hc]
    show (if c ∈ childrenOf keys parents i then indegree c - 1 else indegree c) + _ = _
    by_cases hic : i ∈ parents c
    · have hpos := h.count_pos hc hi hic hiout
      rw [if_pos ((hmem c).mpr ⟨hc, hic⟩)]
      simp [hic]
      omega
    · rw [if_neg fun hmem' => hic ((hmem c).mp hmem').2]
      simp [hic]
  · rw [hsplit, mem_append, h.zero c hc, hfst, mem_filter, decide_eq_true_iff]
    show indegree c = 0 ∨ (c ∈ childrenOf keys parents i ∧ indegree c - 1 = 0) ↔
      (if c ∈ childrenOf keys parents i then indegree c - 1 else indegree c) = 0
    by_cases hchild : c ∈ childrenOf keys parents i
    · rw [if_pos hchild]
      have := hqueued c hchild
      rw [h.zero c hc] at this
      simp [hchild]
      omega
    · simp [hchild]
  · intro before c after heq p hp
    rcases eq_nil_or_concat after with rfl | ⟨rest, last, rfl⟩
    · obtain ⟨rfl, hci⟩ := append_inj' heq rfl
      obtain rfl := (List.cons.inj hci).1
      exact hbefore p hp
    · have heq' : out ++ [i] = (before ++ c :: rest) ++ [last] := by rw [heq]; simp
      obtain ⟨rfl, _⟩ := append_inj' heq' rfl
      exact h.first before c rest rfl p hp
  · intro c hc
    rcases mem_append.mp hc with hc | hc
    · exact h.single c hc
    · obtain rfl := mem_singleton.mp hc
      exact hsingle

end QueueState

/-! ## What comes out -/

theorem queueLoop_spec (hnd : keys.Nodup) : ∀ (fuel : Nat) (indegree : α → Nat)
    (queue out : List α), QueueState keys parents indegree queue out →
    keys.length ≤ fuel + out.length →
    ∃ indegree', QueueState keys parents indegree' []
      (queueLoop keys parents fuel indegree queue out)
  | 0, indegree, queue, out, h, hfuel => by
    have hle : (out ++ queue).length ≤ keys.length :=
      (subperm_of_subset h.nodup h.mem).length_le
    rw [length_append] at hle
    obtain rfl : queue = [] := length_eq_zero_iff.mp (by omega)
    exact ⟨indegree, h⟩
  | _ + 1, indegree, [], _, h, _ => ⟨indegree, h⟩
  | fuel + 1, indegree, i :: queue, out, h, hfuel =>
    queueLoop_spec hnd fuel _ _ _ (h.pop hnd) (by
      rw [length_append, length_singleton]
      omega)

theorem exists_queueState (parents : α → List α) (hnd : keys.Nodup) :
    ∃ indegree, QueueState keys parents indegree [] (queueOrder keys parents) :=
  queueLoop_spec hnd _ _ _ _ (QueueState.start hnd) (by simp)

/-- **What comes out**: keys, each once, each after its parents, each listing a parent once. -/
theorem queueOrder_sound (parents : α → List α) (hnd : keys.Nodup) :
    (queueOrder keys parents).Nodup ∧ (∀ c ∈ queueOrder keys parents, c ∈ keys) ∧
      ParentsBefore keys parents (queueOrder keys parents) ∧
      ∀ c ∈ queueOrder keys parents, (presentParents keys parents c).Nodup := by
  obtain ⟨indegree, h⟩ := exists_queueState parents hnd
  have hnodup := h.nodup
  rw [append_nil] at hnodup
  exact ⟨hnodup, fun c hc => h.mem c (by simpa using hc), h.first, h.single⟩

/-- **Every key comes out** where the keys are ranked and list each parent once. -/
theorem queueOrder_complete (hnd : keys.Nodup) (rank : α → ℕ)
    (hrank : ∀ c ∈ keys, ∀ p ∈ presentParents keys parents c, rank p < rank c)
    (hsingle : ∀ c ∈ keys, (presentParents keys parents c).Nodup) : (queueOrder keys parents).Perm keys := by
  obtain ⟨indegree, h⟩ := exists_queueState parents hnd
  have hall : ∀ n, ∀ c ∈ keys, rank c < n → c ∈ queueOrder keys parents := by
    intro n
    induction n with
    | zero => intro c _ hlt; omega
    | succ n ih =>
      intro c hc hlt
      -- its parents are out, so its count is zero
      have hsub : (presentParents keys parents c).Subperm
          ((queueOrder keys parents).filter fun p => (parents c).contains p) := by
        apply subperm_of_subset (hsingle c hc)
        intro p hp
        obtain ⟨hpc, hpk⟩ := mem_presentParents.mp hp
        rw [mem_filter, contains_eq_mem, decide_eq_true_iff]
        exact ⟨ih p hpk (by have := hrank c hc p hp; omega), hpc⟩
      have hcount := h.counts c hc
      have hlen := hsub.length_le
      have hzero := (h.zero c hc).mpr (by omega)
      simpa using hzero
  obtain ⟨hnodup, hmem, _⟩ := queueOrder_sound parents hnd
  exact (perm_ext_iff_of_nodup hnodup hnd).mpr fun c =>
    ⟨hmem c, fun hc => hall (rank c + 1) c hc (by omega)⟩

end Invariant

end LexLang.Graph
