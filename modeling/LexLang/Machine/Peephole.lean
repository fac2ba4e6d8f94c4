/-
# LexLang.Machine.Peephole — superinstructions

The peephole passes (`lex-bytecode/src/compiler/peephole.rs`), in the order that `compile_program` runs them. A
pass goes over the code once. Where the instructions at a position make up its pattern, and no jump leads
behind the first of them, the first is replaced by a superinstruction and the others stay where they are.

`Fused` says what holds between the code before the passes and the code after any number of them.
-/
import LexLang.Machine.Instruction

namespace LexLang.Machine

open List Option

/-! ## Jump targets -/

def Op.offset? : Op → Option Int
  | .jump off | .jumpIf off | .jumpIfNot off => some off
  | _ => none

/-- Where a jump at `pc` leads. One in front of the code leads behind every code. -/
def jumpTarget (pc : Nat) (off : Int) : Nat := ((pc + 1 + off) % 2 ^ 64).toNat

def collectJumpTargets (code : List Op) : List Nat :=
  code.zipIdx.filterMap fun op => op.1.offset?.map (jumpTarget op.2)

/-! ## A pass -/

structure Slice where
  /-- The superinstruction for the instructions that come first, if they make up the pattern. -/
  fuse : List Op → Option Op
  /-- How many positions behind the first may not be jumped to. -/
  guarded : Nat
  /-- Where the pass goes on. -/
  advance : Nat

namespace Slice

/-- No jump leads behind the start of the window. -/
def isSafe (slice : Slice) (targets : List Nat) (k : Nat) : Bool :=
  (range slice.guarded).all fun i => !targets.contains (k + 1 + i)

/-- The loop of a pass over what is left of the code from `k` on, but for the next `skip` positions. -/
def loop (slice : Slice) (targets : List Nat) : (left k skip : Nat) → List Op → List Op
  | 0, _, _, code => code
  | left + 1, k, skip + 1, code => loop slice targets left (k + 1) skip code
  | left + 1, k, 0, code =>
    match slice.fuse (code.drop k) with
    | some fused =>
      if slice.isSafe targets k then loop slice targets left (k + 1) (slice.advance - 1) (code.set k fused)
      else loop slice targets left (k + 1) 0 code
    | none => loop slice targets left (k + 1) 0 code

def apply (slice : Slice) (code : List Op) : List Op :=
  slice.loop (collectJumpTargets code) code.length 0 0 code

end Slice

/-! ## The passes -/

def isIntConst (constants : List Const) (i : Nat) : Bool :=
  match constants[i]? with
  | some (.int _) => true
  | _ => false

def slice1 (constants : List Const) : Slice where
  fuse
    | .loadLocal localIdx :: .pushConst immConstIdx :: .intAdd :: _ =>
      if isIntConst constants immConstIdx then some (.loadLocalAddIntConst localIdx immConstIdx) else none
    | _ => none
  guarded := 2
  advance := 3

def slice2 : Slice where
  fuse
    | .loadLocalAddIntConst src immConstIdx :: _ :: _ :: .storeLocal dest :: _ =>
      some (.loadLocalAddIntConstStoreLocal src immConstIdx dest)
    | _ => none
  guarded := 3
  advance := 4

def slice3 : Slice where
  fuse
    | .loadLocal lhs :: .loadLocal rhs :: .intAdd :: _ => some (.loadLocalAddLocal lhs rhs)
    | _ => none
  guarded := 2
  advance := 3

def slice4 : Slice where
  fuse
    | .loadLocal lhs :: .loadLocal rhs :: .intSub :: _ => some (.loadLocalSubLocal lhs rhs)
    | .loadLocal lhs :: .loadLocal rhs :: .intMul :: _ => some (.loadLocalMulLocal lhs rhs)
    | _ => none
  guarded := 2
  advance := 3

def slice5 (constants : List Const) : Slice where
  fuse
    | .loadLocal localIdx :: .pushConst immConstIdx :: .intEq :: .jumpIfNot off :: _ =>
      if isIntConst constants immConstIdx then some (.loadLocalEqIntConstJumpIfNot localIdx immConstIdx off)
      else none
    | _ => none
  guarded := 3
  advance := 4

def slice6 : Slice where
  fuse
    | .loadLocal src :: .storeLocal dst :: .loadLocalEqIntConstJumpIfNot localIdx immConstIdx off :: _ =>
      if localIdx = dst then some (.loadLocalStoreEqIntConstJumpIfNot src dst immConstIdx off) else none
    | _ => none
  guarded := 2
  advance := 3

def slice7 : Slice where
  fuse
    | .loadLocal localIdx :: .getField nameIdx siteIdx :: .intAdd :: _ =>
      some (.loadLocalGetFieldAdd localIdx nameIdx siteIdx)
    | .loadLocal localIdx :: .getField nameIdx siteIdx :: .intSub :: _ =>
      some (.loadLocalGetFieldSub localIdx nameIdx siteIdx)
    | .loadLocal localIdx :: .getField nameIdx siteIdx :: .intMul :: _ =>
      some (.loadLocalGetFieldMul localIdx nameIdx siteIdx)
    | _ => none
  guarded := 2
  advance := 3

def slice9 : Slice where
  fuse
    | .loadLocal localIdx :: .getField nameIdx siteIdx :: _ =>
      some (.loadLocalGetField localIdx nameIdx siteIdx)
    | _ => none
  guarded := 1
  advance := 2

/-- The passes in their order. -/
def slices (constants : List Const) : List Slice :=
  [slice1 constants, slice2, slice3, slice4, slice5 constants, slice6, slice7, slice9]

def applyPeepholes (constants : List Const) (code : List Op) : List Op :=
  (slices constants).foldl (fun code slice => slice.apply code) code

/-! ## What a superinstruction stands for -/

namespace Op

/-- The instruction that was there before. -/
def unfuse : Op → Op
  | .loadLocalAddIntConst localIdx _ | .loadLocalAddIntConstStoreLocal localIdx _ _
  | .loadLocalAddLocal localIdx _ | .loadLocalSubLocal localIdx _ | .loadLocalMulLocal localIdx _
  | .loadLocalEqIntConstJumpIfNot localIdx _ _ | .loadLocalStoreEqIntConstJumpIfNot localIdx _ _ _
  | .loadLocalGetFieldAdd localIdx _ _ | .loadLocalGetFieldSub localIdx _ _
  | .loadLocalGetFieldMul localIdx _ _ | .loadLocalGetField localIdx _ _ => .loadLocal localIdx
  | op => op

attribute [local simp] unfuse

/-- The instructions behind it that it does as well, as they are left in the code. -/
def absorbed : Op → List Op
  | .loadLocalAddIntConst _ c => [.pushConst c, .intAdd]
  | .loadLocalAddIntConstStoreLocal _ c dest => [.pushConst c, .intAdd, .storeLocal dest]
  | .loadLocalAddLocal _ rhs => [.loadLocal rhs, .intAdd]
  | .loadLocalSubLocal _ rhs => [.loadLocal rhs, .intSub]
  | .loadLocalMulLocal _ rhs => [.loadLocal rhs, .intMul]
  | .loadLocalEqIntConstJumpIfNot _ c off => [.pushConst c, .intEq, .jumpIfNot off]
  | .loadLocalStoreEqIntConstJumpIfNot _ dst c off =>
    [.storeLocal dst, .loadLocalEqIntConstJumpIfNot dst c off, .pushConst c, .intEq, .jumpIfNot off]
  | .loadLocalGetFieldAdd _ n site => [.getField n site, .intAdd]
  | .loadLocalGetFieldSub _ n site => [.getField n site, .intSub]
  | .loadLocalGetFieldMul _ n site => [.getField n site, .intMul]
  | .loadLocalGetField _ n site => [.getField n site]
  | _ => []

/-- The constant that it adds, or compares with. -/
def intOperand? : Op → Option Nat
  | .loadLocalAddIntConst _ c | .loadLocalAddIntConstStoreLocal _ c _
  | .loadLocalEqIntConstJumpIfNot _ c _ | .loadLocalStoreEqIntConstJumpIfNot _ _ c _ => some c
  | _ => none

end Op

/-- **Code in which superinstructions stand for the instructions of `source`.** -/
structure Fused (constants : List Const) (source code : List Op) : Prop where
  source : code.map Op.unfuse = source
  /-- What a superinstruction stands for is still behind it. -/
  window : ∀ (k : Nat) (op : Op), code[k]? = some op → op.absorbed <+: code.drop (k + 1)
  operand : ∀ (k : Nat) (op : Op) (c : Nat), code[k]? = some op → op.intOperand? = some c → isIntConst constants c
  /-- No jump leads there. -/
  guarded : ∀ (k : Nat) (op : Op) (i : Nat), code[k]? = some op → i < op.absorbed.length → k + 1 + i ∉ collectJumpTargets code

/-! ## One superinstruction -/

section Fused

variable {constants : List Const} {source code : List Op} {k t : Nat} {op fused : Op}

theorem mem_collectJumpTargets : t ∈ collectJumpTargets code ↔
    ∃ pc op off, code[pc]? = some op ∧ op.offset? = some off ∧ jumpTarget pc off = t := by
  unfold collectJumpTargets
  rw [mem_filterMap]
  constructor
  · rintro ⟨⟨op, pc⟩, hop, htarget⟩
    obtain ⟨off, hoff, rfl⟩ := map_eq_some_iff.mp htarget
    exact ⟨pc, op, off, mk_mem_zipIdx_iff_getElem?.mp hop, hoff, rfl⟩
  · rintro ⟨pc, op, off, hop, hoff, rfl⟩
    exact ⟨(op, pc), mk_mem_zipIdx_iff_getElem?.mpr hop, map_eq_some_iff.mpr ⟨off, hoff, rfl⟩⟩

/-- A jump stays a jump, and none is added. -/
theorem mem_collectJumpTargets_set (hop : code[k]? = some op) (hold : op.offset? = none)
    (hnew : fused.offset? = none) : t ∈ collectJumpTargets (code.set k fused) ↔ t ∈ collectJumpTargets code := by
  rw [mem_collectJumpTargets, mem_collectJumpTargets]
  refine exists_congr fun pc => exists_congr fun op' => exists_congr fun off => ?_
  by_cases hpc : pc = k
  · subst hpc
    rw [getElem?_set_self (List.getElem?_eq_some_iff.mp hop).1, hop]
    refine iff_of_false ?_ ?_
    · rintro ⟨hop', hoff, -⟩
      rw [← some.inj hop', hnew] at hoff
      exact nomatch hoff
    · rintro ⟨hop', hoff, -⟩
      rw [← some.inj hop', hold] at hoff
      exact nomatch hoff
  · rw [getElem?_set_ne fun h => hpc h.symm]

/-- An instruction that a superinstruction may replace, with what comes behind it. -/
structure Replaceable (op fused : Op) (behind : List Op) : Prop where
  unfuse : fused.unfuse = op.unfuse
  absorbed : fused.absorbed <+: behind
  old : op.offset? = none
  new : fused.offset? = none
  /-- It is not among the instructions that another one stands for. -/
  free : ∀ (other : Op) (i : Nat), other.absorbed[i]? = some op →
    ∃ next, other.absorbed[i + 1]? = some next ∧ behind.head? ≠ some next

theorem prefix_drop_iff {l : List Op} : l <+: code.drop k ↔ ∀ (i : Nat) (t : Op), l[i]? = some t → code[k + i]? = some t := by
  rw [prefix_iff_getElem?]
  constructor
  · intro h i t ht
    obtain ⟨hi, rfl⟩ := List.getElem?_eq_some_iff.mp ht
    rw [← getElem?_drop]
    exact h i hi
  · intro h i hi
    rw [getElem?_drop]
    exact h i _ (getElem?_eq_getElem hi)

theorem Fused.set (h : Fused constants source code) (hop : code[k]? = some op)
    (hfuse : Replaceable op fused (code.drop (k + 1)))
    (hoperand : ∀ c, fused.intOperand? = some c → isIntConst constants c)
    (hguarded : ∀ i < fused.absorbed.length, k + 1 + i ∉ collectJumpTargets code) :
    Fused constants source (code.set k fused) where
  source := by
    rw [← h.source, map_set, hfuse.unfuse]
    apply ext_getElem?
    intro j
    by_cases hj : j = k
    · subst hj
      rw [getElem?_set_self', getElem?_map, hop]
      rfl
    · rw [getElem?_set_ne fun h => hj h.symm]
  window := by
    intro j op' hop'
    rw [prefix_drop_iff]
    intro i t ht
    by_cases hj : j = k
    · subst hj
      rw [getElem?_set_self (List.getElem?_eq_some_iff.mp hop).1] at hop'
      obtain rfl := some.inj hop'
      rw [getElem?_set_ne (by omega)]
      exact prefix_drop_iff.mp hfuse.absorbed i t ht
    · rw [getElem?_set_ne fun h => hj h.symm] at hop'
      have hwindow := prefix_drop_iff.mp (h.window j op' hop')
      have hk : j + 1 + i ≠ k := by
        rintro rfl
        obtain rfl := some.inj ((hwindow i t ht).symm.trans hop)
        obtain ⟨next, hnext, hne⟩ := hfuse.free op' i ht
        apply hne
        rw [head?_drop]
        exact hwindow (i + 1) next hnext
      rw [getElem?_set_ne fun h => hk h.symm]
      exact hwindow i t ht
  operand := by
    intro j op' c hop' hc
    by_cases hj : j = k
    · subst hj
      rw [getElem?_set_self (List.getElem?_eq_some_iff.mp hop).1] at hop'
      obtain rfl := some.inj hop'
      exact hoperand c hc
    · rw [getElem?_set_ne fun h => hj h.symm] at hop'
      exact h.operand j op' c hop' hc
  guarded := by
    intro j op' i hop' hi
    rw [mem_collectJumpTargets_set hop hfuse.old hfuse.new]
    by_cases hj : j = k
    · subst hj
      rw [getElem?_set_self (List.getElem?_eq_some_iff.mp hop).1] at hop'
      obtain rfl := some.inj hop'
      exact hguarded i hi
    · rw [getElem?_set_ne fun h => hj h.symm] at hop'
      exact h.guarded j op' i hop' hi

/-! ## Every pass -/

theorem drop_eq_cons {x : Op} {xs : List Op} (h : code.drop k = x :: xs) :
    code[k]? = some x ∧ code.drop (k + 1) = xs := by
  constructor
  · rw [← head?_drop, h]
    rfl
  · rw [← tail_drop, h]
    rfl

/-- A load that a superinstruction stands for comes in front of an operator. -/
theorem absorbed_loadLocal {other : Op} {i slot : Nat} (h : other.absorbed[i]? = some (.loadLocal slot)) :
    other.absorbed[i + 1]? = some .intAdd ∨ other.absorbed[i + 1]? = some .intSub ∨
      other.absorbed[i + 1]? = some .intMul := by
  revert h
  fun_cases Op.absorbed other <;> rcases i with _ | _ | _ | _ | _ | i <;> simp

theorem absorbed_ne_loadLocalAddIntConst {other : Op} {i slot c : Nat} :
    other.absorbed[i]? ≠ some (.loadLocalAddIntConst slot c) := by
  fun_cases Op.absorbed other <;> rcases i with _ | _ | _ | _ | _ | i <;> simp

/-- A load in front of anything but an operator may be replaced. -/
theorem Fused.setLoad {slot : Nat} {behind : List Op} {next : Op} (h : Fused constants source code)
    (hdrop : code.drop k = .loadLocal slot :: next :: behind) (hunfuse : fused.unfuse = .loadLocal slot)
    (habsorbed : fused.absorbed <+: next :: behind) (hnew : fused.offset? = none) (hadd : next ≠ .intAdd)
    (hsub : next ≠ .intSub) (hmul : next ≠ .intMul) (hoperand : ∀ c, fused.intOperand? = some c → isIntConst constants c)
    (hguarded : ∀ i < fused.absorbed.length, k + 1 + i ∉ collectJumpTargets code) :
    Fused constants source (code.set k fused) := by
  obtain ⟨hop, hbehind⟩ := drop_eq_cons hdrop
  refine h.set hop ⟨hunfuse, ?_, rfl, hnew, fun other i hi => ?_⟩ hoperand hguarded
  · rwa [hbehind]
  · rw [hbehind]
    obtain hi | hi | hi := absorbed_loadLocal hi
    · exact ⟨_, hi, by simpa using hadd⟩
    · exact ⟨_, hi, by simpa using hsub⟩
    · exact ⟨_, hi, by simpa using hmul⟩

/-- **A pass puts superinstructions only where they stand for what was there.** -/
def Slice.Sound (constants : List Const) (slice : Slice) : Prop :=
  ∀ (source code : List Op) (k : Nat) (fused : Op), Fused constants source code →
    slice.fuse (code.drop k) = some fused → (∀ i < slice.guarded, k + 1 + i ∉ collectJumpTargets code) →
    Fused constants source (code.set k fused)

theorem sound_slice1 : (slice1 constants).Sound constants := by
  intro source code k fused h hfuse hguarded
  unfold slice1 at hfuse
  dsimp only at hfuse
  split at hfuse
  · rename_i hdrop
    split at hfuse
    · rename_i hconst
      obtain rfl := some.inj hfuse
      refine h.setLoad hdrop rfl (by simp [Op.absorbed]) rfl (by simp) (by simp) (by simp) ?_ hguarded
      rintro c ⟨⟩
      exact hconst
    · exact nomatch hfuse
  · exact nomatch hfuse

theorem sound_slice2 : slice2.Sound constants := by
  intro source code k fused h hfuse hguarded
  unfold slice2 at hfuse
  dsimp only at hfuse
  split at hfuse
  · rename_i src c second third dest rest hdrop
    obtain rfl := some.inj hfuse
    obtain ⟨hop, hbehind⟩ := drop_eq_cons hdrop
    -- what the first superinstruction stands for is still there
    obtain ⟨rest', hwindow⟩ := h.window k _ hop
    rw [hbehind] at hwindow
    obtain ⟨hsecond, hwindow⟩ := List.cons.inj hwindow
    obtain ⟨hthird, -⟩ := List.cons.inj hwindow
    refine h.set hop ⟨rfl, ?_, rfl, rfl, fun other i hi => absurd hi absorbed_ne_loadLocalAddIntConst⟩ ?_ hguarded
    · rw [hbehind, ← hsecond, ← hthird]
      exact ⟨rest, rfl⟩
    · rintro c' ⟨⟩
      exact h.operand k _ c hop rfl
  · exact nomatch hfuse

theorem sound_slice3 : slice3.Sound constants := by
  intro source code k fused h hfuse hguarded
  unfold slice3 at hfuse
  dsimp only at hfuse
  split at hfuse
  · rename_i hdrop
    obtain rfl := some.inj hfuse
    exact h.setLoad hdrop rfl (by simp [Op.absorbed]) rfl (by simp) (by simp) (by simp) (fun c hc => nomatch hc) hguarded
  · exact nomatch hfuse

theorem sound_slice4 : slice4.Sound constants := by
  intro source code k fused h hfuse hguarded
  unfold slice4 at hfuse
  dsimp only at hfuse
  split at hfuse
  case h_3 => exact nomatch hfuse
  all_goals
    rename_i hdrop
    obtain rfl := some.inj hfuse
    exact h.setLoad hdrop rfl (by simp [Op.absorbed]) rfl (by simp) (by simp) (by simp) (fun c hc => nomatch hc) hguarded

theorem sound_slice5 : (slice5 constants).Sound constants := by
  intro source code k fused h hfuse hguarded
  unfold slice5 at hfuse
  dsimp only at hfuse
  split at hfuse
  · rename_i hdrop
    split at hfuse
    · rename_i hconst
      obtain rfl := some.inj hfuse
      refine h.setLoad hdrop rfl (by simp [Op.absorbed]) rfl (by simp) (by simp) (by simp) ?_ hguarded
      rintro c ⟨⟩
      exact hconst
    · exact nomatch hfuse
  · exact nomatch hfuse

/-- The rest of the window is that of the superinstruction inside of it. -/
theorem sound_slice6 : slice6.Sound constants := by
  intro source code k fused h hfuse hguarded
  unfold slice6 at hfuse
  dsimp only at hfuse
  split at hfuse
  · rename_i src dst localIdx c off rest hdrop
    split at hfuse
    · rename_i hlocal
      subst hlocal
      obtain rfl := some.inj hfuse
      obtain ⟨hop, hbehind⟩ := drop_eq_cons hdrop
      obtain ⟨-, hbehind'⟩ := drop_eq_cons hbehind
      obtain ⟨hinner, hrest⟩ := drop_eq_cons hbehind'
      obtain ⟨rest', hwindow⟩ := h.window (k + 1 + 1) _ hinner
      rw [hrest] at hwindow
      refine h.setLoad hdrop rfl ?_ rfl (by simp) (by simp) (by simp) ?_ ?_
      · rw [← hwindow]
        exact ⟨rest', rfl⟩
      · rintro c' ⟨⟩
        exact h.operand _ _ c hinner rfl
      · intro i hi
        have hi : i < 5 := hi
        by_cases hsmall : i < 2
        · exact hguarded i hsmall
        · have hinside := h.guarded (k + 1 + 1) _ (i - 2) hinner (show i - 2 < 3 by omega)
          rwa [show k + 1 + 1 + 1 + (i - 2) = k + 1 + i by omega] at hinside
    · exact nomatch hfuse
  · exact nomatch hfuse

theorem sound_slice7 : slice7.Sound constants := by
  intro source code k fused h hfuse hguarded
  unfold slice7 at hfuse
  dsimp only at hfuse
  split at hfuse
  case h_4 => exact nomatch hfuse
  all_goals
    rename_i hdrop
    obtain rfl := some.inj hfuse
    exact h.setLoad hdrop rfl (by simp [Op.absorbed]) rfl (by simp) (by simp) (by simp) (fun c hc => nomatch hc) hguarded

theorem sound_slice9 : slice9.Sound constants := by
  intro source code k fused h hfuse hguarded
  unfold slice9 at hfuse
  dsimp only at hfuse
  split at hfuse
  · rename_i hdrop
    obtain rfl := some.inj hfuse
    exact h.setLoad hdrop rfl (by simp [Op.absorbed]) rfl (by simp) (by simp) (by simp) (fun c hc => nomatch hc) hguarded
  · exact nomatch hfuse

theorem sound_slices : ∀ slice ∈ slices constants, slice.Sound constants := by
  intro slice hslice
  simp only [slices, mem_cons, not_mem_nil, or_false] at hslice
  rcases hslice with rfl | rfl | rfl | rfl | rfl | rfl | rfl | rfl
  · exact sound_slice1
  · exact sound_slice2
  · exact sound_slice3
  · exact sound_slice4
  · exact sound_slice5
  · exact sound_slice6
  · exact sound_slice7
  · exact sound_slice9

/-! ## All passes -/

theorem Op.offset?_unfuse (op : Op) : op.unfuse.offset? = op.offset? := by
  cases op <;> rfl

theorem Fused.mem_targets (h : Fused constants source code) :
    t ∈ collectJumpTargets code ↔ t ∈ collectJumpTargets source := by
  rw [mem_collectJumpTargets, mem_collectJumpTargets]
  refine exists_congr fun pc => ?_
  rw [← h.source, getElem?_map]
  constructor
  · rintro ⟨op, off, hop, hoff, htarget⟩
    exact ⟨op.unfuse, off, by rw [hop]; rfl, by rw [Op.offset?_unfuse, hoff], htarget⟩
  · rintro ⟨op, off, hop, hoff, htarget⟩
    obtain ⟨op', hop', rfl⟩ := map_eq_some_iff.mp hop
    exact ⟨op', off, hop', by rw [← Op.offset?_unfuse, hoff], htarget⟩

theorem Slice.fused_loop {slice : Slice} (hslice : slice.Sound constants) (left k skip : Nat)
    (h : Fused constants source code) :
    Fused constants source (slice.loop (collectJumpTargets source) left k skip code) := by
  induction left generalizing k skip code with
  | zero => exact h
  | succ left ih =>
    match skip with
    | skip + 1 => exact ih _ _ h
    | 0 =>
      unfold Slice.loop
      split
      · rename_i fused hfuse
        split
        · rename_i hsafe
          refine ih _ _ (hslice source code k fused h hfuse fun i hi => ?_)
          rw [h.mem_targets]
          simpa using List.all_eq_true.mp hsafe i (mem_range.mpr hi)
        · exact ih _ _ h
      · exact ih _ _ h

theorem Slice.loop_congr {slice : Slice} {targets targets' : List Nat} (h : ∀ t, t ∈ targets ↔ t ∈ targets')
    (left k skip : Nat) : slice.loop targets left k skip code = slice.loop targets' left k skip code := by
  have hsafe : slice.isSafe targets = slice.isSafe targets' := by
    funext k
    unfold Slice.isSafe
    simp [h]
  induction left generalizing k skip code with
  | zero => rfl
  | succ left ih =>
    match skip with
    | skip + 1 => exact ih _ _
    | 0 =>
      unfold Slice.loop
      rw [hsafe]
      simp only [ih]

theorem Slice.fused_apply {slice : Slice} (hslice : slice.Sound constants) (h : Fused constants source code) :
    Fused constants source (slice.apply code) := by
  unfold Slice.apply
  rw [Slice.loop_congr fun t => h.mem_targets]
  exact Slice.fused_loop hslice _ _ _ h

/-- There is no superinstruction in the code. -/
def Primitive (code : List Op) : Prop := ∀ op ∈ code, op.absorbed = []

theorem Op.unfuse_of_absorbed (h : op.absorbed = []) : op.unfuse = op := by
  cases op <;> first | rfl | exact nomatch h

theorem Op.intOperand?_of_absorbed (h : op.absorbed = []) : op.intOperand? = none := by
  cases op <;> first | rfl | exact nomatch h

theorem fused_of_primitive (h : Primitive source) : Fused constants source source where
  source := by
    have hsame : source.map Op.unfuse = source.map id :=
      map_congr_left fun op hop => Op.unfuse_of_absorbed (h op hop)
    rw [hsame, List.map_id]
  window k op hop := by
    rw [h op (mem_of_getElem? hop)]
    exact nil_prefix
  operand k op c hop hc := by
    rw [Op.intOperand?_of_absorbed (h op (mem_of_getElem? hop))] at hc
    exact nomatch hc
  guarded k op i hop hi := by
    rw [h op (mem_of_getElem? hop)] at hi
    exact absurd hi (Nat.not_lt_zero i)

/-- **After all the passes every superinstruction stands for what was there.** -/
theorem fused_applyPeepholes (h : Primitive source) : Fused constants source (applyPeepholes constants source) := by
  unfold applyPeepholes
  have hall : ∀ (slices : List Slice) (code : List Op), (∀ slice ∈ slices, slice.Sound constants) →
      Fused constants source code →
      Fused constants source (slices.foldl (fun code slice => slice.apply code) code) := by
    intro slices
    induction slices with
    | nil => exact fun code _ hcode => hcode
    | cons slice slices ih =>
      intro code hslices hcode
      refine ih _ (fun s hs => hslices s (mem_cons_of_mem _ hs)) ?_
      exact Slice.fused_apply (hslices slice mem_cons_self) hcode
  exact hall _ _ sound_slices (fused_of_primitive h)

end Fused

end LexLang.Machine
