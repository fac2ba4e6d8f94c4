/-
# LexLang.Machine.Flow — what an instruction reads, writes and leads to

The slots that an instruction reads and writes are those that `lex-bytecode/src/compiler/liveness.rs` says. Two
frames that differ in other slots only go on alike: `couples_exec`.
-/
import LexLang.Machine.Peephole
import LexLang.Machine.Through

namespace LexLang.Machine

open Exec
open List

/-! ## Slots and successors -/

namespace Op

def reads : Op → List Nat
  | .loadLocal i | .takeLocal i => [i]
  | .loadLocalAddIntConst localIdx _ | .loadLocalEqIntConstJumpIfNot localIdx _ _
  | .loadLocalGetFieldAdd localIdx _ _ | .loadLocalGetFieldSub localIdx _ _
  | .loadLocalGetFieldMul localIdx _ _ | .loadLocalGetField localIdx _ _ => [localIdx]
  | .loadLocalAddIntConstStoreLocal src _ _ | .loadLocalStoreEqIntConstJumpIfNot src _ _ _ => [src]
  | .loadLocalAddLocal lhsIdx rhsIdx | .loadLocalSubLocal lhsIdx rhsIdx | .loadLocalMulLocal lhsIdx rhsIdx =>
    [lhsIdx, rhsIdx]
  | _ => []

def writes : Op → Option Nat
  | .storeLocal i => some i
  | .loadLocalAddIntConstStoreLocal _ _ dest => some dest
  | .loadLocalStoreEqIntConstJumpIfNot _ dst _ _ => some dst
  | _ => none

/-- Where the instruction at `pc` may lead when it runs. -/
def nexts (pc : Nat) : Op → List Nat
  | .jump off => [jumpTarget pc off]
  | .jumpIf off | .jumpIfNot off => [pc + 1, jumpTarget pc off]
  | .loadLocalEqIntConstJumpIfNot _ _ off => [pc + 4, jumpTarget (pc + 3) off]
  | .loadLocalStoreEqIntConstJumpIfNot _ _ _ off => [pc + 6, jumpTarget (pc + 5) off]
  | .return | .panic _ | .tailCall .. => []
  | op => [pc + 1 + op.absorbed.length]

/-- The slots that matter before the instruction, when those of `live` matter after it. -/
def before (op : Op) (live : Nat → Prop) (i : Nat) : Prop := i ∈ op.reads ∨ (live i ∧ op.writes ≠ some i)

end Op

/-! ## Frames that go on alike -/

/-- The frame's slots are the same where it matters, and those of the frames below everywhere. -/
structure Alike (place : Place) (live : Nat → Prop) (l l' : List Value) : Prop where
  length : l.length = l'.length
  below : ∀ j < place.localsStart, l[j]? = l'[j]?
  slot : ∀ i, live i → l[place.localsStart + i]? = l'[place.localsStart + i]?

section Alike

variable {place : Place} {live live' : Nat → Prop} {l l' : List Value} {i : Nat} {v w : Value}

theorem Alike.refl (place : Place) (live : Nat → Prop) (l : List Value) : Alike place live l l :=
  ⟨rfl, fun _ _ => rfl, fun _ _ => rfl⟩

theorem Alike.mono (h : Alike place live l l') (hlive : ∀ i, live' i → live i) : Alike place live' l l' :=
  ⟨h.length, h.below, fun i hi => h.slot i (hlive i hi)⟩

/-- The two values must be the same where the slot matters. -/
theorem Alike.set (h : Alike place live l l') (hlive : ∀ j, live' j → j ≠ i → live j) (hvalue : live' i → v = w) :
    Alike place live' (l.set (place.localsStart + i) v) (l'.set (place.localsStart + i) w) where
  length := by rw [length_set, length_set, h.length]
  below j hj := by
    rw [getElem?_set_ne (by omega), getElem?_set_ne (by omega)]
    exact h.below j hj
  slot j hj := by
    by_cases hji : j = i
    · subst hji
      rw [getElem?_set, getElem?_set, if_pos rfl, if_pos rfl, hvalue hj, h.length]
    · rw [getElem?_set_ne (by omega), getElem?_set_ne (by omega)]
      exact h.slot j (hlive j hj hji)

theorem Alike.take (h : Alike place live l l') : l.take place.localsStart = l'.take place.localsStart := by
  apply ext_getElem?
  intro j
  by_cases hj : j < place.localsStart
  · rw [getElem?_take_of_lt hj, getElem?_take_of_lt hj]
    exact h.below j hj
  · rw [getElem?_take_eq_none (by omega), getElem?_take_eq_none (by omega)]

end Alike

/-- **From two frames that differ in their slots by `P`, the computation comes to two that differ by `Q`**, with
one result. -/
def Exec.Couples {α : Type} (P Q : Nat → List Value → List Value → Prop) (x : Exec α) : Prop :=
  ∀ (s : Focus) (l : List Value), P s.pc s.memory.localsStorage l →
    match x.run s with
    | .ok a s' => ∃ l', x.run (s.moved s.pc l) = .ok a (s'.moved s'.pc l') ∧ Q s'.pc s'.memory.localsStorage l'
    | .error e _ => ∃ s', x.run (s.moved s.pc l) = .error e s'

namespace Exec.Couples

variable {α β : Type} {P Q R : Nat → List Value → List Value → Prop} {place : Place}

variable {x : Exec α}

theorem bind {f : α → Exec β} (hx : Couples P Q x) (hf : ∀ a, Couples Q R (f a)) : Couples P R (x >>= f) := by
  intro s l hP
  have hrun : ∀ s, (x >>= f).run s = EStateM.bind x f s := fun _ => rfl
  have hxs := hx s l hP
  rw [hrun, hrun]
  unfold EStateM.bind
  have happ : ∀ s, x s = x.run s := fun _ => rfl
  rw [happ, happ]
  cases hxrun : x.run s with
  | ok a s' =>
    rw [hxrun] at hxs
    obtain ⟨l', hl', hQ⟩ := hxs
    rw [hl']
    exact hf a s' l' hQ
  | error e s' =>
    rw [hxrun] at hxs
    obtain ⟨s'', hs''⟩ := hxs
    rw [hs'']
    exact ⟨s'', rfl⟩

theorem mono (hx : Couples P Q x) (h : ∀ pc l l', Q pc l l' → R pc l l') : Couples P R x := by
  intro s l hP
  have hxs := hx s l hP
  split at hxs
  · obtain ⟨l', hl', hQ⟩ := hxs
    exact ⟨l', hl', h _ _ _ hQ⟩
  · exact hxs

/-- What neither jumps nor works on a slot. -/
theorem of_aside (hx : Aside x) : Couples P P x := by
  intro s l hP
  have hother := hx s.pc l s
  have hself := hx s.pc s.memory.localsStorage s
  rw [show s.moved s.pc s.memory.localsStorage = s from rfl] at hself
  rw [hother]
  cases hrun : x.run s with
  | ok a s' =>
    rw [hrun] at hself
    have hstay : s' = s'.moved s.pc s.memory.localsStorage := (EStateM.Result.ok.inj hself).2
    have hpc : s'.pc = s.pc := by rw [hstay]; rfl
    have hlocals : s'.memory.localsStorage = s.memory.localsStorage := by rw [hstay]; rfl
    refine ⟨l, ?_, ?_⟩
    · rw [hpc]
      rfl
    · rw [hpc, hlocals]
      exact hP
  | error e s' => exact ⟨_, rfl⟩

theorem fail (e : VmError) : Couples P Q (Exec.fail e : Exec α) := fun _ _ _ => ⟨_, rfl⟩

theorem setPc {pc : Nat} (h : ∀ q l l', P q l l' → Q pc l l') : Couples P Q (Exec.setPc pc) :=
  fun _ l hP => ⟨l, rfl, h _ _ _ hP⟩

theorem load {i : Nat} (h : ∀ pc l l', P pc l l' → l[place.localsStart + i]? = l'[place.localsStart + i]?) :
    Couples P P (Exec.load place i) := by
  intro s l hP
  have hrun : ∀ s, (Exec.load place i).run s =
      (require s.memory.localsStorage[place.localsStart + i]?).run s := fun _ => rfl
  have hsame : (s.moved s.pc l).memory.localsStorage[place.localsStart + i]? =
      s.memory.localsStorage[place.localsStart + i]? := (h _ _ _ hP).symm
  rw [hrun, hrun, hsame]
  cases s.memory.localsStorage[place.localsStart + i]? with
  | none => exact ⟨_, rfl⟩
  | some v => exact ⟨l, rfl, hP⟩

theorem loadInt {i : Nat} (h : ∀ pc l l', P pc l l' → l[place.localsStart + i]? = l'[place.localsStart + i]?) :
    Couples P P (Exec.loadInt place i) :=
  (load h).bind fun _ => of_aside (.require _)

theorem store {i : Nat} {v : Value} (hlength : ∀ pc l l', P pc l l' → l.length = l'.length)
    (h : ∀ pc l l', P pc l l' → Q pc (l.set (place.localsStart + i) v) (l'.set (place.localsStart + i) v)) :
    Couples P Q (Exec.store place i v) := by
  intro s l hP
  have hrun : ∀ s : Focus, (Exec.store place i v).run s =
      if place.localsStart + i < s.memory.localsStorage.length then
        .ok () (s.moved s.pc (s.memory.localsStorage.set (place.localsStart + i) v))
      else .error .panicked s := by
    intro s
    show (ite (place.localsStart + i < s.memory.localsStorage.length) _ _ : Exec Unit).run s = _
    split <;> rfl
  have hlen : (s.moved s.pc l).memory.localsStorage.length = s.memory.localsStorage.length :=
    (hlength _ _ _ hP).symm
  rw [hrun, hrun, hlen]
  by_cases hin : place.localsStart + i < s.memory.localsStorage.length
  · rw [if_pos hin, if_pos hin]
    exact ⟨l.set (place.localsStart + i) v, rfl, h _ _ _ hP⟩
  · rw [if_neg hin, if_neg hin]
    exact ⟨_, rfl⟩

end Exec.Couples

/-! ## Every instruction -/

section Instructions

variable {program : Program} {host : Host} {place : Place} {op : Op} {pc next : Nat} {live : Nat → Prop}

/-- Where the frame goes on, and the slots that matter there. -/
def Ahead (place : Place) (nexts : List Nat) (live : Nat → Prop) (pc : Nat) (l l' : List Value) : Prop :=
  pc ∈ nexts ∧ Alike place live l l'

variable {nexts : List Nat}

variable {before : Nat → Prop}

/-- A slot is read that matters. -/
theorem couples_load {i : Nat} (hi : before i) :
    Exec.Couples (Ahead place nexts before) (Ahead place nexts before) (load place i) :=
  .load fun _ _ _ h => h.2.slot i hi

theorem couples_loadInt {i : Nat} (hi : before i) :
    Exec.Couples (Ahead place nexts before) (Ahead place nexts before) (loadInt place i) :=
  .loadInt fun _ _ _ h => h.2.slot i hi

theorem couples_store {i : Nat} (v : Value) (hlive : ∀ j, live j → j ≠ i → before j) :
    Exec.Couples (Ahead place nexts before) (Ahead place nexts live) (store place i v) :=
  .store (fun _ _ _ h => h.2.length) fun _ _ _ h => ⟨h.1, h.2.set hlive fun _ => rfl⟩

theorem couples_setPc {nexts' : List Nat} (h : pc ∈ nexts') :
    Exec.Couples (Ahead place nexts live) (Ahead place nexts' live) (setPc pc) :=
  .setPc fun _ _ _ hahead => ⟨h, hahead.2⟩

theorem couples_narrow (hlive : ∀ j, live j → before j) {α : Type} {x : Exec α}
    (hx : Exec.Couples (Ahead place nexts before) (Ahead place nexts before) x) :
    Exec.Couples (Ahead place nexts before) (Ahead place nexts live) x :=
  hx.mono fun _ _ _ h => ⟨h.1, h.2.mono hlive⟩

theorem couples_branch {holds : Bool} {off : Int} :
    Exec.Couples (Ahead place nexts live) (Ahead place [next + 1, jumpTarget next off] live)
      (branch holds (next + 1) off) := by
  unfold branch
  split
  · exact couples_setPc mem_cons_self
  · refine couples_setPc ?_
    rw [Int.natCast_add]
    exact mem_cons_of_mem _ mem_cons_self

theorem couples_jumpIf (b : Bool) {off : Int} (hlive : ∀ j, live j → before j) :
    Exec.Couples (Ahead place [pc + 1] before) (Ahead place [pc + 1, jumpTarget pc off] live)
      (if b then jumpTo (pc + 1 + off) else pure ()) := by
  split
  · exact .setPc fun _ _ _ h => ⟨mem_cons_of_mem _ mem_cons_self, h.2.mono hlive⟩
  · exact .mono (.of_aside (.pure ())) fun _ _ _ h =>
    ⟨mem_cons.mpr (.inl (mem_singleton.mp h.1)), h.2.mono hlive⟩

variable {f : Int64 → Int64 → Int64}

theorem couples_fusedLocals {lhs rhs : Nat} (hlhs : before lhs) (hrhs : before rhs) (hlive : ∀ j, live j → before j) :
    Exec.Couples (Ahead place nexts before) (Ahead place [next] live) (fusedLocals place lhs rhs next f) :=
  (couples_loadInt hlhs).bind fun _ => ((couples_loadInt hrhs).bind fun _ =>
    (couples_narrow hlive (.of_aside (.push _))).bind fun _ => couples_setPc mem_cons_self)

theorem couples_fusedField {text : String} {i nameIdx siteIdx : Nat}
    (hi : before i) (hlive : ∀ j, live j → before j) :
    Exec.Couples (Ahead place nexts before) (Ahead place [next] live)
      (fusedField program place text i nameIdx siteIdx next f) :=
  .bind (.of_aside .popInt) fun _ => .bind (couples_load hi) fun _ =>
    .bind (.of_aside (aside_readField _ _ _ _)) fun _ => .bind (.of_aside (.require _)) fun _ =>
      .bind (couples_narrow hlive (.of_aside (.push _))) fun _ => couples_setPc mem_cons_self

variable {exec : Exec Unit}

theorem couples_mobile (h : op.isMobile = true)
    (hexec : op.exec? program host place pc = some exec) (live : Nat → Prop) :
    Exec.Couples (Ahead place [pc + 1] (op.before live)) (Ahead place (op.nexts pc) live) exec := by
  have hkept : op.writes = none → ∀ j, live j → op.before live j :=
    fun hnone j hj => .inr ⟨hj, by rw [hnone]; exact nofun⟩
  have hwritten : ∀ i, op.writes = some i → ∀ j, live j → j ≠ i → op.before live j :=
    fun i hi j hj hji => .inr ⟨hj, by rw [hi]; exact fun h => hji (Option.some.inj h).symm⟩
  have hread : ∀ i ∈ op.reads, op.before live i := fun i hi => .inl hi
  cases op <;> cases h <;> cases hexec
  case loadLocal i =>
    exact .bind (couples_load (hread i mem_cons_self)) fun _ =>
      couples_narrow (hkept rfl) (.of_aside (.push _))
  case storeLocal i =>
    exact .bind (.of_aside .pop) fun v => couples_store v (hwritten i rfl)
  case takeLocal i =>
    exact .bind (couples_load (hread i mem_cons_self)) fun _ =>
      .bind (couples_store .unit fun j hj _ => hkept rfl j hj) fun _ => .of_aside (.push _)
  case jump off => exact .mono (couples_setPc mem_cons_self) fun _ _ _ h => ⟨h.1, h.2.mono (hkept rfl)⟩
  case jumpIf off => exact .bind (.of_aside .popBool) fun b => couples_jumpIf b (hkept rfl)
  case jumpIfNot off => exact .bind (.of_aside .popBool) fun b => couples_jumpIf (!b) (hkept rfl)
  case loadLocalAddIntConst i c =>
    exact .bind (couples_loadInt (hread i mem_cons_self)) fun _ =>
      .bind (.of_aside (aside_intConst _ _)) fun _ => .bind (couples_narrow (hkept rfl) (.of_aside (.push _))) fun _ => couples_setPc mem_cons_self
  case loadLocalAddIntConstStoreLocal src c dest =>
    exact .bind (couples_loadInt (hread src mem_cons_self)) fun _ => .bind (.of_aside (aside_intConst _ _)) fun _ =>
      .bind (couples_store _ (hwritten dest rfl)) fun _ => couples_setPc mem_cons_self
  case loadLocalAddLocal i j | loadLocalSubLocal i j | loadLocalMulLocal i j =>
    exact couples_fusedLocals (hread i mem_cons_self) (hread j (mem_cons_of_mem _ mem_cons_self))
      (hkept rfl)
  case loadLocalEqIntConstJumpIfNot i c off =>
    exact .bind (couples_loadInt (hread i mem_cons_self)) fun _ => .bind (.of_aside (aside_intConst _ _)) fun _ =>
      .mono couples_branch fun _ _ _ h => ⟨h.1, h.2.mono (hkept rfl)⟩
  case loadLocalStoreEqIntConstJumpIfNot src dst c off =>
    exact .bind (couples_loadInt (hread src mem_cons_self)) fun _ =>
      .bind (couples_store _ (hwritten dst rfl)) fun _ => .bind (.of_aside (aside_intConst _ _)) fun _ =>
        couples_branch
  case loadLocalGetFieldAdd i n site | loadLocalGetFieldSub i n site | loadLocalGetFieldMul i n site =>
    exact couples_fusedField (hread i mem_cons_self) (hkept rfl)
  case loadLocalGetField i n site =>
    exact .bind (couples_load (hread i mem_cons_self)) fun _ => .bind (.of_aside (aside_readField _ _ _ _)) fun _ =>
      .bind (couples_narrow (hkept rfl) (.of_aside (.push _))) fun _ => couples_setPc mem_cons_self

theorem writes_of_immobile (h : op.isMobile = false) : op.writes = none := by
  cases op <;> first | rfl | cases h

theorem nexts_of_immobile (h : op.isMobile = false) (hpanic : ∀ i, op ≠ .panic i)
    (hexec : op.exec? program host place pc = some exec) : op.nexts pc = [pc + 1] := by
  cases op <;> first | rfl | exact absurd rfl (hpanic _) | (cases hexec; done) | cases h

/-- **Frames that are alike in what matters before an instruction are alike in what matters after it.** -/
theorem couples_exec (hexec : op.exec? program host place pc = some exec) (live : Nat → Prop) :
    Exec.Couples (Ahead place [pc + 1] (op.before live)) (Ahead place (op.nexts pc) live) exec := by
  cases hmobile : op.isMobile with
  | true => exact couples_mobile hmobile hexec live
  | false =>
    by_cases hpanic : ∃ i, op = .panic i
    · -- it goes nowhere
      obtain ⟨i, rfl⟩ := hpanic
      obtain rfl := Option.some.inj hexec
      refine .bind (.of_aside (aside_const i)) fun c => ?_
      split
      · exact .fail _
      · exact .fail _
    · -- it goes on behind itself
      refine .mono (.of_aside (aside_exec hmobile pc hexec)) fun q l l' h => ⟨?_, h.2.mono fun j hj => ?_⟩
      · rw [nexts_of_immobile hmobile (fun i hi => hpanic ⟨i, hi⟩) hexec]
        exact h.1
      · exact .inr ⟨hj, by rw [writes_of_immobile hmobile]; exact nofun⟩

end Instructions

end LexLang.Machine
