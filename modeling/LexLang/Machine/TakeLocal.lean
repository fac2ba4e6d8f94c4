/-
# LexLang.Machine.TakeLocal — moving a value out of its slot

A slot that is live where the code leads is live before, unless it is written; so a slot out of which a value is
moved is not read again. The frame then differs in slots only that do not matter: `simulates_takes`.
-/
import LexLang.Machine.Liveness
import LexLang.Machine.Superinstruction

namespace LexLang.Machine

open LexLang.Transition Exec
open List

/-! ## What the types of the code say -/

/-- A code that can be stored: no more than memory holds, with offsets of 32 bits. -/
structure Encoded (code : List Op) : Prop where
  length : code.length < 2 ^ 63
  offsets : ∀ op ∈ code, ∀ off, op.offset? = some off → -2 ^ 31 ≤ off ∧ off < 2 ^ 31

/-! ## Liveness along the code -/

section Flow

variable {constants : List Const} {source code : List Op} {pc q i : Nat} {op t : Op} {off : Int}

theorem live_read (hop : code[pc]? = some op) (hi : i ∈ op.reads) : i ∈ (liveness code).liveIn pc := by
  rw [((settled_liveness code).2 pc op hop).2, Live.mem_through]
  exact .inl hi

theorem live_out (hop : code[pc]? = some op) (hq : q ∈ succs pc op code.length)
    (hi : i ∈ (liveness code).liveIn q) : i ∈ (liveness code).liveOut pc := by
  rw [((settled_liveness code).2 pc op hop).1, Live.mem_joined]
  exact ⟨q, hq, hi⟩

theorem live_flow (hop : code[pc]? = some op) (hq : q ∈ succs pc op code.length)
    (hi : i ∈ (liveness code).liveIn q) (hw : op.writes ≠ some i) : i ∈ (liveness code).liveIn pc := by
  have hsettled := (settled_liveness code).2 pc op hop
  rw [hsettled.2, Live.mem_through, ← hsettled.1]
  exact .inr ⟨live_out hop hq hi, hw⟩

theorem lt_of_live (hi : i ∈ (liveness code).liveIn q) : q < code.length := by
  by_contra hq
  rw [(settled_liveness code).1.outside q (List.getElem?_eq_none (Nat.le_of_not_lt hq))] at hi
  exact absurd hi (Finset.notMem_empty i)

/-- The instruction may lead to the one behind it in the code. -/
def Op.goesOn : Op → Bool
  | .jump _ | .return | .panic _ | .tailCall .. => false
  | _ => true

theorem succ_mem_succs (h : op.goesOn = true) (hpc : pc + 1 < code.length) : pc + 1 ∈ succs pc op code.length := by
  unfold succs
  cases op <;> first | (cases h; done) | simp [hpc]

theorem jumpTarget_mem_succs (hcode : Encoded code) (hop : code[pc]? = some op) (hoff : op.offset? = some off)
    (hlt : jumpTarget pc off < code.length) : jumpTarget pc off ∈ succs pc op code.length := by
  obtain ⟨hlow, hhigh⟩ := hcode.offsets op (mem_of_getElem? hop) off hoff
  have hpc := (List.getElem?_eq_some_iff.mp hop).1
  have hlength := hcode.length
  have htarget : 0 ≤ (pc + 1 + off : Int) ∧ (pc + 1 + off : Int) < code.length ∧
      jumpTarget pc off = (pc + 1 + off : Int).toNat := by
    unfold jumpTarget at hlt ⊢
    omega
  obtain ⟨hpos, hin, heq⟩ := htarget
  rw [heq]
  cases op <;> cases hoff <;> simp [succs, hpos, hin]

/-- Behind an instruction that goes on. -/
theorem live_next (hop : code[pc]? = some op) (hon : op.goesOn = true)
    (hi : i ∈ (liveness code).liveIn (pc + 1)) (hw : op.writes ≠ some i) : i ∈ (liveness code).liveIn pc :=
  live_flow hop (succ_mem_succs hon (lt_of_live hi)) hi hw

theorem absorbed_goesOn (ht : t ∈ op.absorbed) :
    t.goesOn = true ∧ op.goesOn = true ∧ ∀ w, t.writes = some w → op.writes = some w := by
  cases op <;> simp only [Op.absorbed, mem_cons, not_mem_nil, or_false] at ht
  all_goals rcases ht with rfl | rfl | rfl | rfl | rfl
  all_goals exact ⟨rfl, rfl, fun w hw => by first | exact hw | cases hw⟩

/-- From inside of a window to its start. -/
theorem live_window (hfused : Fused constants source code) (hop : code[pc]? = some op) (hon : op.goesOn = true)
    (hw : op.writes ≠ some i) : ∀ m ≤ op.absorbed.length, i ∈ (liveness code).liveIn (pc + 1 + m) →
      i ∈ (liveness code).liveIn pc
  | 0, _, hi => live_next hop hon hi hw
  | m + 1, hm, hi => by
    have ht := prefix_drop_iff.mp (hfused.window pc op hop) m _ (List.getElem?_eq_getElem hm)
    obtain ⟨honm, -, hwm⟩ := absorbed_goesOn (getElem_mem hm)
    exact live_window hfused hop hon hw m (Nat.le_of_succ_le hm) (live_next ht honm hi fun h => hw (hwm i h))

/-- Where an instruction may lead: behind its window, by its own offset, or by that of the test it stands for. -/
theorem nexts_cases (hq : q ∈ op.nexts pc) : (op.goesOn = true ∧ q = pc + 1 + op.absorbed.length) ∨
      (∃ off, op.offset? = some off ∧ q = jumpTarget pc off) ∨
      ∃ m off, op.goesOn = true ∧ op.absorbed[m]? = some (.jumpIfNot off) ∧ q = jumpTarget (pc + 1 + m) off := by
  cases op
  case jump off => exact .inr (.inl ⟨off, rfl, mem_singleton.mp hq⟩)
  case jumpIf off | jumpIfNot off =>
    obtain rfl | hq := mem_cons.mp hq
    · exact .inl ⟨rfl, rfl⟩
    · exact .inr (.inl ⟨off, rfl, mem_singleton.mp hq⟩)
  case loadLocalEqIntConstJumpIfNot i c off =>
    obtain rfl | hq := mem_cons.mp hq
    · exact .inl ⟨rfl, rfl⟩
    · exact .inr (.inr ⟨2, off, rfl, rfl, mem_singleton.mp hq⟩)
  case loadLocalStoreEqIntConstJumpIfNot i dst c off =>
    obtain rfl | hq := mem_cons.mp hq
    · exact .inl ⟨rfl, rfl⟩
    · exact .inr (.inr ⟨4, off, rfl, rfl, mem_singleton.mp hq⟩)
  case «return» | panic | tailCall => exact absurd hq not_mem_nil
  all_goals exact .inl ⟨rfl, mem_singleton.mp hq⟩

/-- **A slot that is live where an instruction leads is live before it**, unless the instruction writes it. -/
theorem live_nexts (hfused : Fused constants source code) (hcode : Encoded code) (hop : code[pc]? = some op)
    (hq : q ∈ op.nexts pc) (hi : i ∈ (liveness code).liveIn q) (hw : op.writes ≠ some i) :
    i ∈ (liveness code).liveIn pc := by
  have hlt := lt_of_live hi
  obtain ⟨hon, rfl⟩ | ⟨off, hoff, rfl⟩ | ⟨m, off, hon, hm, rfl⟩ := nexts_cases hq
  · exact live_window hfused hop hon hw _ (Nat.le_refl _) hi
  · exact live_flow hop (jumpTarget_mem_succs hcode hop hoff hlt) hi hw
  · have ht := prefix_drop_iff.mp (hfused.window pc op hop) m _ hm
    have hm' := (List.getElem?_eq_some_iff.mp hm).1
    refine live_window hfused hop hon hw m (Nat.le_of_lt hm') ?_
    exact live_flow ht (jumpTarget_mem_succs hcode ht rfl hlt) hi nofun

end Flow

/-! ## A slot that is not read again -/

section Paths

variable {constants : List Const} {source code : List Op} {pc q i : Nat} {op : Op}

/-- The code may lead from `pc` to `q` without writing the slot. -/
inductive Unwritten (code : List Op) (i : Nat) : Nat → Nat → Prop
  | refl (pc : Nat) : Unwritten code i pc pc
  | head {pc pc' q op} (hop : code[pc]? = some op) (hw : op.writes ≠ some i) (hnext : pc' ∈ op.nexts pc)
      (hrest : Unwritten code i pc' q) : Unwritten code i pc q

theorem live_of_unwritten (hfused : Fused constants source code) (hcode : Encoded code)
    (hpath : Unwritten code i pc q) (hi : i ∈ (liveness code).liveIn q) : i ∈ (liveness code).liveIn pc := by
  induction hpath with
  | refl pc => exact hi
  | head hop hw hnext _ ih => exact live_nexts hfused hcode hop hnext (ih hi) hw

/-- What the rewriting makes of an instruction. -/
theorem getElem?_applyLastLoadTakes (hop : code[pc]? = some op) : (applyLastLoadTakes code)[pc]? = some op ∨
      ∃ i, op = .loadLocal i ∧ i ∉ (liveness code).liveOut pc ∧
        (applyLastLoadTakes code)[pc]? = some (.takeLocal i) := by
  unfold applyLastLoadTakes
  split
  · exact .inl hop
  · dsimp only
    rw [List.getElem?_mapIdx, hop, Option.map_some]
    split
    · exact .inl rfl
    · split
      · rename_i i
        split
        · exact .inl rfl
        · rename_i hlive
          exact .inr ⟨i, rfl, hlive, rfl⟩
      · exact .inl rfl

theorem length_applyLastLoadTakes (code : List Op) : (applyLastLoadTakes code).length = code.length := by
  unfold applyLastLoadTakes
  split
  · rfl
  · exact length_mapIdx

/-- Behind a load whose slot is not live. -/
theorem not_live_next (hop : code[pc]? = some (.loadLocal i)) (hlive : i ∉ (liveness code).liveOut pc) :
    i ∉ (liveness code).liveIn (pc + 1) :=
  fun hi => hlive (live_out hop (succ_mem_succs rfl (lt_of_live hi)) hi)

end Paths

/-! ## The simulation -/

section Simulation

variable {program : Program} {host : Host} {place : Place} {source code : List Op} {s : Focus} {op : Op}

/-- The frames are the same but for slots that are not live. -/
def SameLive (place : Place) (code : List Op) (s t : Focus) : Prop :=
  ∃ l, t = s.moved s.pc l ∧ Alike place (· ∈ (liveness code).liveIn s.pc) s.memory.localsStorage l

theorem SameLive.refl (place : Place) (code : List Op) (s : Focus) : SameLive place code s s :=
  ⟨s.memory.localsStorage, rfl, .refl _ _ _⟩

theorem nexts_of_asked {pc : Nat} (h : op.exec? program host place pc = none) (hleaves : ¬op.leaves = true) :
    pc + 1 ∈ op.nexts pc := by
  cases op <;> first | (cases h; done) | exact absurd rfl hleaves | exact mem_cons_self

theorem writes_of_asked {pc i : Nat} (h : op.exec? program host place pc = none) : op.writes ≠ some i := by
  cases op <;> first | (cases h; done) | exact nofun

/-- An instruction that is kept does the same in both frames. -/
theorem turnOf_kept (hfused : Fused program.constants source code) (hcode : Encoded code)
    (hop : code[s.pc]? = some op) {t : Focus} (hst : SameLive place code s t) :
    match turnOf program host place op s with
    | .next s' => ∃ t', turnOf program host place op t = .next t' ∧ SameLive place code s' t'
    | .ask e s' => ∃ t', turnOf program host place op t = .ask e t' ∧
        ∀ m, SameLive place code (resume s' m) (resume t' m)
    | .done f => turnOf program host place op t = .done f := by
  obtain ⟨l, rfl, halike⟩ := hst
  -- what matters before the instruction, for what is live where it leads
  have hbefore : ∀ i, op.before (fun i => ∃ q ∈ op.nexts s.pc, i ∈ (liveness code).liveIn q) i →
      i ∈ (liveness code).liveIn s.pc := by
    rintro i (hread | ⟨⟨q, hq, hi⟩, hw⟩)
    · exact live_read hop hread
    · exact live_nexts hfused hcode hop hq hi hw
  cases hexec : op.exec? program host place s.pc with
  | none =>
    have hhide : (s.moved s.pc l).memory.hide place = s.memory.hide place := by
      unfold Memory.hide Focus.moved
      dsimp only
      rw [halike.take]
    have hturn : ∀ t : Focus, t.pc = s.pc → turnOf program host place op t =
        if op.leaves then .done (.left op (t.memory.hide place))
        else .ask (op, t.memory.hide place) { t with pc := t.pc + 1 } := by
      intro t ht
      unfold turnOf
      rw [ht, hexec]
    rw [hturn s rfl, hturn (s.moved s.pc l) rfl, hhide]
    by_cases hleaves : op.leaves
    · rw [if_pos hleaves, if_pos hleaves]
    · rw [if_neg hleaves, if_neg hleaves]
      refine ⟨_, rfl, fun m => ⟨l, rfl, halike.mono fun i hi => hbefore i (.inr ⟨⟨s.pc + 1, ?_, hi⟩, ?_⟩)⟩⟩
      · exact nexts_of_asked hexec hleaves
      · exact writes_of_asked hexec
  | some exec =>
    have hcouples := couples_exec hexec fun i => ∃ q ∈ op.nexts s.pc, i ∈ (liveness code).liveIn q
    have hrun := hcouples { s with pc := s.pc + 1 } l ⟨mem_cons_self, halike.mono hbefore⟩
    rw [turnOf_exec hexec]
    have hturn : turnOf program host place op (s.moved s.pc l) = _ := turnOf_exec hexec
    rw [hturn]
    cases hres : exec.run { s with pc := s.pc + 1 } with
    | ok a s' =>
      rw [hres] at hrun
      obtain ⟨l', hl', hq, halike'⟩ := hrun
      refine ⟨s'.moved s'.pc l', ?_, l', rfl, halike'.mono fun i hi => ⟨s'.pc, hq, hi⟩⟩
      have hl' : exec.run { s.moved s.pc l with pc := s.pc + 1 } = _ := hl'
      rw [show (s.moved s.pc l).pc = s.pc from rfl, hl']
      rfl
    | error e s' =>
      rw [hres] at hrun
      obtain ⟨s'', hs''⟩ := hrun
      have hs'' : exec.run { s.moved s.pc l with pc := s.pc + 1 } = _ := hs''
      rw [show (s.moved s.pc l).pc = s.pc from rfl, hs'']
      cases e <;> rfl

/-- A load out of which a move is made: the frames differ in the slot afterwards. -/
theorem turnOf_taken {i : Nat} (hop : code[s.pc]? = some (.loadLocal i))
    (hlive : i ∉ (liveness code).liveOut s.pc) {t : Focus} (hst : SameLive place code s t) :
    (∃ s' t', turnOf program host place (.loadLocal i) s = .next s' ∧
      turnOf program host place (.takeLocal i) t = .next t' ∧ SameLive place code s' t') ∨
    ((turnOf program host place (.loadLocal i) s : Turn Focus Asked Finish) = .done .crashed ∧
      (turnOf program host place (.takeLocal i) t : Turn Focus Asked Finish) = .done .crashed) := by
  obtain ⟨l, rfl, halike⟩ := hst
  have hslot := halike.slot i (live_read hop mem_cons_self)
  have htake : turnOf program host place (.takeLocal i) (s.moved s.pc l) = _ := turnOf_exec rfl
  rw [run_bind, run_load] at htake
  have hload : (s.moved s.pc l).memory.localsStorage[place.localsStart + i]? =
      s.memory.localsStorage[place.localsStart + i]? := hslot.symm
  dsimp only at htake
  rw [hload] at htake
  cases hv : s.memory.localsStorage[place.localsStart + i]? with
  | none =>
    rw [hv] at htake
    exact .inr ⟨turnOf_loadLocal_none hv, htake⟩
  | some v =>
    rw [hv] at htake hslot
    have hin := (List.getElem?_eq_some_iff.mp hslot.symm).1
    dsimp only at htake
    rw [run_bind, run_store] at htake
    rw [if_pos (show place.localsStart + i < (s.moved s.pc l).memory.localsStorage.length from hin)] at htake
    refine .inl ⟨s.pushed v, _, turnOf_loadLocal hv, htake, l.set (place.localsStart + i) .unit, rfl, ?_⟩
    -- the slot is not live behind the load
    have hset : Alike place (· ∈ (liveness code).liveIn (s.pc + 1))
        (s.memory.localsStorage.set (place.localsStart + i) v) (l.set (place.localsStart + i) .unit) :=
      halike.set (fun j hj _ => live_next hop rfl hj nofun) fun hi => absurd hi (not_live_next hop hlive)
    obtain ⟨hlt, rfl⟩ := List.getElem?_eq_some_iff.mp hv
    rw [set_getElem_self] at hset
    exact hset

variable (host) in
/-- One turn of the code, before and after the rewriting. -/
theorem turn_takes (hfused : Fused program.constants source code) (hcode : Encoded code) {t : Focus}
    (hst : SameLive place code s t) :
    match (body program host place code).turn s with
    | .next s' => ∃ t', (body program host place (applyLastLoadTakes code)).turn t = .next t' ∧
        SameLive place code s' t'
    | .ask e s' => ∃ t', (body program host place (applyLastLoadTakes code)).turn t = .ask e t' ∧
        ∀ m, SameLive place code (resume s' m) (resume t' m)
    | .done f => (body program host place (applyLastLoadTakes code)).turn t = .done f := by
  have hpc : t.pc = s.pc := by
    obtain ⟨l, rfl, -⟩ := hst
    rfl
  obtain ⟨hnone, hturn⟩ | ⟨op, hop, hturn⟩ := turn_cases program host place code s
  · rw [hturn]
    obtain ⟨-, htaken⟩ | ⟨op, hop, -⟩ := turn_cases program host place (applyLastLoadTakes code) t
    · exact htaken
    · have hlt := (List.getElem?_eq_some_iff.mp hop).1
      rw [length_applyLastLoadTakes, hpc] at hlt
      exact absurd hlt (List.getElem?_eq_none_iff.mp hnone).not_gt
  · rw [hturn]
    obtain hsame | ⟨i, rfl, hlive, htaken⟩ := getElem?_applyLastLoadTakes hop
    · rw [← hpc] at hsame
      rw [turn_eq hsame]
      exact turnOf_kept hfused hcode hop hst
    · rw [← hpc] at htaken
      rw [turn_eq htaken]
      obtain ⟨s', t', hs', ht', hst'⟩ | ⟨hs', ht'⟩ := turnOf_taken hop hlive hst
      · rw [hs']
        exact ⟨t', ht', hst'⟩
      · rw [hs']
        exact ht'

/-- **Moving values out of slots keeps what is seen of the code.** -/
theorem simulates_takes (hfused : Fused program.constants source code) (hcode : Encoded code) :
    Simulates (body program host place code) (body program host place (applyLastLoadTakes code))
      (SameLive place code) Eq where
  next := by
    intro s t t' hst hturn
    have hboth := turn_takes host hfused hcode hst
    split at hboth
    · rename_i s' hs
      obtain ⟨t'', ht, hst'⟩ := hboth
      obtain rfl := Turn.next.inj (hturn.symm.trans ht)
      exact ⟨0, s', .one hs, hst'⟩
    · obtain ⟨t'', ht, -⟩ := hboth
      exact nomatch hturn.symm.trans ht
    · exact nomatch hturn.symm.trans hboth
  ask := by
    intro s t t' e hst hturn
    have hboth := turn_takes host hfused hcode hst
    split at hboth
    · obtain ⟨t'', ht, -⟩ := hboth
      exact nomatch hturn.symm.trans ht
    · rename_i e' s' hs
      obtain ⟨t'', ht, hst'⟩ := hboth
      obtain ⟨rfl, rfl⟩ := Turn.ask.inj (hturn.symm.trans ht)
      exact ⟨0, s, s', .refl s, hs, hst'⟩
    · exact nomatch hturn.symm.trans hboth
  done := by
    intro s t g hst hturn
    have hboth := turn_takes host hfused hcode hst
    split at hboth
    · obtain ⟨t'', ht, -⟩ := hboth
      exact nomatch hturn.symm.trans ht
    · obtain ⟨t'', ht, -⟩ := hboth
      exact nomatch hturn.symm.trans ht
    · rename_i f hf
      obtain rfl := Turn.done.inj (hturn.symm.trans hboth)
      exact ⟨0, s, g, .refl s, hf, rfl⟩

end Simulation

end LexLang.Machine
