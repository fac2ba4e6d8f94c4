/-
# LexLang.Machine.Liveness — the last load of a slot

The backward analysis of `lex-bytecode/src/compiler/liveness.rs` and the rewriting that rests on it: a load
whose slot is not live behind it moves the value out of the slot. The sets only grow, and no set holds a slot
that the code does not name, so the sweeps come to an end: `settled_liveness`.
-/
import LexLang.Machine.Flow
import Mathlib.Algebra.Order.BigOperators.Group.Finset
import Mathlib.Algebra.Ring.Nat
import Mathlib.Algebra.GroupWithZero.Action.Defs

namespace LexLang.Machine

/-! ## The analysis -/

/-- The successors, as the analysis sees them in a code of length `n`. -/
def succs (pc : Nat) (op : Op) (n : Nat) : List Nat :=
  let target (base off : Int) : Option Nat :=
    if 0 ≤ base + off ∧ base + off < n then some (base + off).toNat else none
  let next : Option Nat := if pc + 1 < n then some (pc + 1) else none
  let v : List (Option Nat) :=
    match op with
    | .jump off => [target (pc + 1) off]
    | .jumpIf off | .jumpIfNot off => [next, target (pc + 1) off]
    | .loadLocalEqIntConstJumpIfNot _ _ off => [next, target (pc + 4) off]
    | .loadLocalStoreEqIntConstJumpIfNot _ _ _ off => [next, target (pc + 6) off]
    | .return | .panic _ | .tailCall .. => []
    | _ => [next]
  v.filterMap id

/-- What is live in front of the instruction. -/
def Op.through (op : Op) (out : Finset Nat) : Finset Nat := out \ op.writes.toFinset ∪ op.reads.toFinset

structure Live where
  liveIn : Nat → Finset Nat
  liveOut : Nat → Finset Nat
  changed : Bool

namespace Live

/-- The slots that are live in a successor. -/
def joined (n : Nat) (s : Live) (pc : Nat) (op : Op) : Finset Nat :=
  (succs pc op n).foldl (fun out t => out ∪ s.liveIn t) ∅

/-- Note the sets of an instruction. -/
def put (s : Live) (pc : Nat) (out inn : Finset Nat) : Live :=
  ⟨Function.update s.liveIn pc inn, Function.update s.liveOut pc out, true⟩

def visit (code : List Op) (s : Live) (pc : Nat) : Live :=
  match code[pc]? with
  | none => s
  | some op =>
    let out := s.joined code.length pc op
    let inn := op.through out
    if out ≠ s.liveOut pc ∨ inn ≠ s.liveIn pc then s.put pc out inn else s

/-- Once over the code, from its end. -/
def sweep (code : List Op) (s : Live) : Live :=
  (List.range code.length).reverse.foldl (visit code) { s with changed := false }

/-- Sweep until nothing changes. -/
def settle (code : List Op) : Nat → Live → Live
  | 0, s => s
  | fuel + 1, s =>
    let s := s.sweep code
    if s.changed then settle code fuel s else s

end Live

/-- One more than the highest slot that the code names. -/
def nslots (code : List Op) : Nat :=
  ((code.flatMap fun op => op.reads ++ op.writes.toList).map (· + 1)).max?.getD 0

def liveness (code : List Op) : Live :=
  Live.settle code (2 * code.length * nslots code + 1) ⟨fun _ => ∅, fun _ => ∅, true⟩

/-! ## The rewriting -/

/-- How many instructions the superinstruction stands for. -/
def Op.width : Op → Nat
  | .loadLocalGetField .. => 2
  | .loadLocalAddIntConst .. | .loadLocalAddLocal .. | .loadLocalSubLocal .. | .loadLocalMulLocal ..
  | .loadLocalGetFieldAdd .. | .loadLocalGetFieldSub .. | .loadLocalGetFieldMul .. => 3
  | .loadLocalAddIntConstStoreLocal .. | .loadLocalEqIntConstJumpIfNot .. => 4
  | .loadLocalStoreEqIntConstJumpIfNot .. => 6
  | _ => 1

/-- The instruction is one that a superinstruction in front of it stands for. -/
def tombstone (code : List Op) (pc : Nat) : Bool :=
  (List.range pc).any fun k =>
    match code[k]? with
    | some op => pc < k + op.width
    | none => false

def applyLastLoadTakes (code : List Op) : List Op :=
  if nslots code = 0 then code
  else
    let live := liveness code
    code.mapIdx fun pc op =>
      if tombstone code pc then op
      else
        match op with
        | .loadLocal i => if i ∈ live.liveOut pc then .loadLocal i else .takeLocal i
        | op => op

/-! ## The sweeps come to an end -/

namespace Live

section Sweeps

variable {code : List Op} {s s' : Live} {pc k i : Nat} {op : Op} {out inn : Finset Nat}

@[simp] theorem put_liveIn_self : (s.put pc out inn).liveIn pc = inn := Function.update_self ..

@[simp] theorem put_liveOut_self : (s.put pc out inn).liveOut pc = out := Function.update_self ..

theorem put_liveIn_of_ne (h : k ≠ pc) : (s.put pc out inn).liveIn k = s.liveIn k := Function.update_of_ne h ..

theorem put_liveOut_of_ne (h : k ≠ pc) : (s.put pc out inn).liveOut k = s.liveOut k := Function.update_of_ne h ..

theorem mem_joined {n : Nat} : i ∈ s.joined n pc op ↔ ∃ t ∈ succs pc op n, i ∈ s.liveIn t := by
  have hfold : ∀ (ts : List Nat) (out : Finset Nat),
      i ∈ ts.foldl (fun out t => out ∪ s.liveIn t) out ↔ i ∈ out ∨ ∃ t ∈ ts, i ∈ s.liveIn t := by
    intro ts
    induction ts with
    | nil => simp
    | cons t ts ih =>
      intro out
      rw [List.foldl_cons, ih]
      simp [or_assoc]
  unfold joined
  rw [hfold]
  simp

theorem mem_through : i ∈ op.through out ↔ i ∈ op.reads ∨ (i ∈ out ∧ op.writes ≠ some i) := by
  unfold Op.through
  rw [Finset.mem_union, Finset.mem_sdiff, List.mem_toFinset, Option.mem_toFinset, or_comm, Option.mem_def]

theorem lt_nslots (hop : op ∈ code) (hi : i ∈ op.reads) : i < nslots code := by
  apply List.le_max?_getD_of_mem
  rw [List.mem_map]
  exact ⟨i, List.mem_flatMap.mpr ⟨op, hop, List.mem_append_left _ hi⟩, rfl⟩

/-- What is live here is live there. -/
structure Within (s s' : Live) : Prop where
  liveIn : ∀ pc, s.liveIn pc ⊆ s'.liveIn pc
  liveOut : ∀ pc, s.liveOut pc ⊆ s'.liveOut pc

theorem Within.joined {n : Nat} (h : s.Within s') : s.joined n pc op ⊆ s'.joined n pc op := by
  intro i hi
  obtain ⟨t, ht, hit⟩ := mem_joined.mp hi
  exact mem_joined.mpr ⟨t, ht, h.liveIn t hit⟩

theorem through_mono {out' : Finset Nat} (h : out ⊆ out') : op.through out ⊆ op.through out' := by
  intro i hi
  rw [mem_through] at hi ⊢
  exact hi.imp_right fun hi => ⟨h hi.1, hi.2⟩

/-- **What holds all along**: nothing is live yet that will not be after the next visit. -/
structure Growing (code : List Op) (s : Live) : Prop where
  out : ∀ (pc : Nat) (op : Op), code[pc]? = some op → s.liveOut pc ⊆ s.joined code.length pc op
  inn : ∀ (pc : Nat) (op : Op), code[pc]? = some op → s.liveIn pc ⊆ op.through (s.joined code.length pc op)
  slots : ∀ pc, s.liveIn pc ⊆ Finset.range (nslots code) ∧ s.liveOut pc ⊆ Finset.range (nslots code)
  outside : ∀ pc, code[pc]? = none → s.liveIn pc = ∅

/-- The sets of an instruction are what its successors make them. -/
def SettledAt (code : List Op) (s : Live) (pc : Nat) : Prop :=
  ∀ op, code[pc]? = some op →
    s.liveOut pc = s.joined code.length pc op ∧ s.liveIn pc = op.through (s.joined code.length pc op)

/-- How much is live in all. -/
def weight (code : List Op) (s : Live) : Nat :=
  ∑ pc ∈ Finset.range code.length, ((s.liveIn pc).card + (s.liveOut pc).card)

variable (h : Growing code s)
include h

theorem Growing.joined_slots (pc : Nat) (op : Op) : s.joined code.length pc op ⊆ Finset.range (nslots code) := by
  intro i hi
  obtain ⟨t, -, hit⟩ := mem_joined.mp hi
  exact (h.slots t).1 hit

theorem Growing.weight_le : s.weight code ≤ 2 * code.length * nslots code := by
  have hcard : ∀ pc ∈ Finset.range code.length,
      (s.liveIn pc).card + (s.liveOut pc).card ≤ 2 * nslots code := by
    intro pc _
    have hin := Finset.card_le_card (h.slots pc).1
    have hout := Finset.card_le_card (h.slots pc).2
    rw [Finset.card_range] at hin hout
    omega
  have hsum := Finset.sum_le_card_nsmul _ _ _ hcard
  rw [Finset.card_range, smul_eq_mul] at hsum
  unfold weight
  calc _ ≤ code.length * (2 * nslots code) := hsum
    _ = 2 * code.length * nslots code := by rw [Nat.mul_left_comm, Nat.mul_assoc]

/-- A visit puts more into the sets of an instruction, if anything. -/
theorem Growing.within_update (hop : code[pc]? = some op) :
    s.Within (s.put pc (s.joined code.length pc op) (op.through (s.joined code.length pc op))) where
  liveIn k := by
    by_cases hk : k = pc
    · subst hk
      rw [put_liveIn_self]
      exact h.inn k op hop
    · rw [put_liveIn_of_ne hk]
  liveOut k := by
    by_cases hk : k = pc
    · subst hk
      rw [put_liveOut_self]
      exact h.out k op hop
    · rw [put_liveOut_of_ne hk]

theorem Growing.update (hop : code[pc]? = some op) :
    Growing code (s.put pc (s.joined code.length pc op) (op.through (s.joined code.length pc op))) := by
  have hwithin := h.within_update hop
  refine ⟨fun k op' hop' => ?_, fun k op' hop' => ?_, fun k => ?_, fun k hk => ?_⟩
  · by_cases hk : k = pc
    · subst hk
      obtain rfl := Option.some.inj (hop.symm.trans hop')
      rw [put_liveOut_self]
      exact hwithin.joined
    · rw [put_liveOut_of_ne hk]
      exact (h.out k op' hop').trans hwithin.joined
  · by_cases hk : k = pc
    · subst hk
      obtain rfl := Option.some.inj (hop.symm.trans hop')
      rw [put_liveIn_self]
      exact through_mono hwithin.joined
    · rw [put_liveIn_of_ne hk]
      exact (h.inn k op' hop').trans (through_mono hwithin.joined)
  · by_cases hk : k = pc
    · subst hk
      rw [put_liveIn_self, put_liveOut_self]
      refine ⟨fun i hi => ?_, h.joined_slots k op⟩
      obtain hread | ⟨hout, -⟩ := mem_through.mp hi
      · exact Finset.mem_range.mpr (lt_nslots (List.mem_of_getElem? hop) hread)
      · exact h.joined_slots k op hout
    · rw [put_liveIn_of_ne hk, put_liveOut_of_ne hk]
      exact h.slots k
  · have hne : k ≠ pc := by
      rintro rfl
      exact nomatch hop.symm.trans hk
    rw [put_liveIn_of_ne hne]
    exact h.outside k hk

theorem Growing.weight_lt (hop : code[pc]? = some op)
    (hdiff : s.joined code.length pc op ≠ s.liveOut pc ∨ op.through (s.joined code.length pc op) ≠ s.liveIn pc) :
    s.weight code <
      (s.put pc (s.joined code.length pc op) (op.through (s.joined code.length pc op))).weight code := by
  have hwithin := h.within_update hop
  have hpc : pc ∈ Finset.range code.length := Finset.mem_range.mpr (List.getElem?_eq_some_iff.mp hop).1
  have hin := Finset.card_le_card (h.inn pc op hop)
  have hout := Finset.card_le_card (h.out pc op hop)
  unfold Live.weight
  refine Finset.sum_lt_sum (fun k _ => ?_) ⟨pc, hpc, ?_⟩
  · exact Nat.add_le_add (Finset.card_le_card (hwithin.liveIn k)) (Finset.card_le_card (hwithin.liveOut k))
  · rw [put_liveIn_self, put_liveOut_self]
    obtain hdiff | hdiff := hdiff
    · have hlt := Finset.card_lt_card (Finset.ssubset_iff_subset_ne.mpr ⟨h.out pc op hop, hdiff.symm⟩)
      omega
    · have hlt := Finset.card_lt_card (Finset.ssubset_iff_subset_ne.mpr ⟨h.inn pc op hop, hdiff.symm⟩)
      omega

/-- **One visit** changes nothing, or makes more live. -/
theorem Growing.visit (pc : Nat) : Growing code (s.visit code pc) ∧ ((s.visit code pc = s ∧ SettledAt code s pc) ∨
        ((s.visit code pc).changed = true ∧ s.weight code < (s.visit code pc).weight code)) := by
  unfold Live.visit
  cases hop : code[pc]? with
  | none => exact ⟨h, .inl ⟨rfl, fun op hop' => nomatch hop.symm.trans hop'⟩⟩
  | some op =>
    dsimp only
    split
    · rename_i hdiff
      exact ⟨h.update hop, .inr ⟨rfl, h.weight_lt hop hdiff⟩⟩
    · rename_i hsame
      rw [not_or, not_not, not_not] at hsame
      refine ⟨h, .inl ⟨rfl, fun op' hop' => ?_⟩⟩
      obtain rfl := Option.some.inj (hop.symm.trans hop')
      exact ⟨hsame.1.symm, hsame.2.symm⟩

theorem Growing.foldl (pcs : List Nat) : Growing code (pcs.foldl (Live.visit code) s) ∧
      ((pcs.foldl (Live.visit code) s = s ∧ ∀ pc ∈ pcs, SettledAt code s pc) ∨
        ((pcs.foldl (Live.visit code) s).changed = true ∧ s.weight code < (pcs.foldl (Live.visit code) s).weight code)) := by
  induction pcs generalizing s with
  | nil => exact ⟨h, .inl ⟨rfl, fun _ hpc => nomatch hpc⟩⟩
  | cons pc pcs ih =>
    obtain ⟨hgrowing, hvisit⟩ := h.visit pc
    obtain ⟨hgrowing', hrest⟩ := ih hgrowing
    refine ⟨hgrowing', ?_⟩
    rw [List.foldl_cons]
    obtain ⟨hsame, hsettled⟩ | ⟨hchanged, hlt⟩ := hvisit
    · rw [hsame] at hrest ⊢
      exact hrest.imp (fun hrest => ⟨hrest.1, List.forall_mem_cons.mpr ⟨hsettled, hrest.2⟩⟩) id
    · obtain ⟨hsame, -⟩ | ⟨hchanged', hlt'⟩ := hrest
      · rw [hsame]
        exact .inr ⟨hchanged, hlt⟩
      · exact .inr ⟨hchanged', hlt.trans hlt'⟩

/-- **Sweeps that are enough** leave everything settled. -/
theorem Growing.settle {fuel : Nat} (hfuel : 2 * code.length * nslots code < fuel + s.weight code) :
    Growing code (s.settle code fuel) ∧ ∀ pc, SettledAt code (s.settle code fuel) pc := by
  induction fuel generalizing s with
  | zero =>
    have hle := h.weight_le
    omega
  | succ fuel ih =>
    have hstart : Growing code { s with changed := false } := ⟨h.out, h.inn, h.slots, h.outside⟩
    obtain ⟨hgrowing, hsweep⟩ := hstart.foldl (List.range code.length).reverse
    unfold Live.settle
    dsimp only
    obtain ⟨hsame, hsettled⟩ | ⟨hchanged, hlt⟩ := hsweep
    · have hswept : s.sweep code = { s with changed := false } := hsame
      rw [hswept]
      refine ⟨hstart, fun pc op hop => hsettled pc ?_ op hop⟩
      rw [List.mem_reverse, List.mem_range]
      exact (List.getElem?_eq_some_iff.mp hop).1
    · rw [if_pos (show (s.sweep code).changed = true from hchanged)]
      have hweight : Live.weight code { s with changed := false } = s.weight code := rfl
      rw [hweight] at hlt
      refine ih hgrowing ?_
      show _ < fuel + Live.weight code ((List.range code.length).reverse.foldl (Live.visit code) { s with changed := false })
      omega

end Sweeps

end Live

theorem growing_empty (code : List Op) : Live.Growing code ⟨fun _ => ∅, fun _ => ∅, true⟩ :=
  ⟨fun _ _ _ => Finset.empty_subset _, fun _ _ _ => Finset.empty_subset _,
    fun _ => ⟨Finset.empty_subset _, Finset.empty_subset _⟩, fun _ _ => rfl⟩

/-- **The loop of the analysis ends**, and its sets are what the successors make them. -/
theorem settled_liveness (code : List Op) :
    Live.Growing code (liveness code) ∧ ∀ pc, Live.SettledAt code (liveness code) pc :=
  (growing_empty code).settle (by omega)

end LexLang.Machine
