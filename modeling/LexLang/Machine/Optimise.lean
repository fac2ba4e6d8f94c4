/-
# LexLang.Machine.Optimise — the code that runs does what the code that was compiled does

`compile_program` puts superinstructions into the code of every function, and moves values out of
slots that are not read again.
-/
import LexLang.Machine.TakeLocal
import LexLang.Machine.Accounting

namespace LexLang.Machine

open LexLang.Transition Exec
open Option
open List

/-- The passes over the code of a function (`lex-bytecode/src/compiler/mod.rs`). -/
def optimise (constants : List Const) (code : List Op) : List Op :=
  applyLastLoadTakes (applyPeepholes constants code)

/-- Code as the compiler emits it: no superinstruction, and no value that is moved out of its slot. -/
structure Unoptimised (code : List Op) : Prop where
  primitive : Primitive code
  untaken : ∀ i, .takeLocal i ∉ code
  encoded : Encoded code

/-- Where a jump, or the jump that a superinstruction stands for, leads. -/
def Op.target? (pc : Nat) : Op → Option Nat
  | .jump off | .jumpIf off | .jumpIfNot off => some (jumpTarget pc off)
  | .loadLocalEqIntConstJumpIfNot _ _ off => some (jumpTarget (pc + 3) off)
  | .loadLocalStoreEqIntConstJumpIfNot _ _ _ off => some (jumpTarget (pc + 5) off)
  | _ => none

section Optimise

variable {program : Program} {host : Host} {place : Place} {constants : List Const} {source code : List Op}
  {pc q k i : Nat} {op fused : Op}

/-! ## Jumps and windows -/

/-- **No jump leads into a window.** -/
theorem Fused.target_ne (h : Fused constants source code) {target : Nat} (hop : code[pc]? = some op)
    (htarget : op.target? pc = some target) (hfused : code[k]? = some fused) (hi : i < fused.absorbed.length) :
    target ≠ k + 1 + i := by
  suffices hmem : target ∈ collectJumpTargets code by
    rintro rfl
    exact h.guarded k fused i hfused hi hmem
  rw [mem_collectJumpTargets]
  cases op <;> cases htarget
  case loadLocalEqIntConstJumpIfNot slot c off =>
    exact ⟨pc + 3, .jumpIfNot off, off, prefix_drop_iff.mp (h.window pc _ hop) 2 _ rfl, rfl, rfl⟩
  case loadLocalStoreEqIntConstJumpIfNot src dst c off =>
    exact ⟨pc + 5, .jumpIfNot off, off, prefix_drop_iff.mp (h.window pc _ hop) 4 _ rfl, rfl, rfl⟩
  all_goals exact ⟨pc, _, _, hop, rfl, rfl⟩

/-- The offsets are those of the code before. -/
theorem Fused.encoded (h : Fused constants source code) (hsource : Encoded source) : Encoded code where
  length := by
    have hlength := hsource.length
    rwa [← h.source, length_map] at hlength
  offsets op hop off hoff := by
    refine hsource.offsets op.unfuse ?_ off ?_
    · rw [← h.source]
      exact mem_map_of_mem hop
    · rw [Op.offset?_unfuse, hoff]

/-! ## Slots that were taken -/

/-- What stands at a place was there before, or was a load. -/
theorem before_takes (hop : (applyLastLoadTakes code)[pc]? = some op) :
    code[pc]? = some op ∨ ∃ i, op = .takeLocal i ∧ code[pc]? = some (.loadLocal i) := by
  have hlt := (List.getElem?_eq_some_iff.mp hop).1
  rw [length_applyLastLoadTakes] at hlt
  have hcode := getElem?_eq_getElem hlt
  obtain hsame | ⟨i, hload, -, htaken⟩ := getElem?_applyLastLoadTakes hcode
  · obtain rfl := some.inj (hsame.symm.trans hop)
    exact .inl hcode
  · rw [hload] at hcode
    exact .inr ⟨i, some.inj (hop.symm.trans htaken), hcode⟩

/-- Moving a value out of a slot changes neither what is read and written nor the way. -/
theorem flow_before_takes (hop : (applyLastLoadTakes code)[pc]? = some op) :
    ∃ op', code[pc]? = some op' ∧ op'.reads = op.reads ∧ op'.writes = op.writes ∧ op'.nexts pc = op.nexts pc := by
  obtain hsame | ⟨i, rfl, hload⟩ := before_takes hop
  · exact ⟨op, hsame, rfl, rfl, rfl⟩
  · exact ⟨_, hload, rfl, rfl, rfl⟩

theorem unwritten_before_takes (h : Unwritten (applyLastLoadTakes code) i pc q) : Unwritten code i pc q := by
  induction h with
  | refl pc => exact .refl pc
  | head hop hw hnext _ ih =>
    obtain ⟨op', hop', -, hwrites, hnexts⟩ := flow_before_takes hop
    exact .head hop' (by rwa [hwrites]) (by rwa [hnexts]) ih

/-- **A slot that was taken is not read again**, unless it is written before. -/
theorem not_read_of_taken (hfused : Fused constants source code) (hcode : Encoded code)
    (huntaken : ∀ i, .takeLocal i ∉ code) (htaken : (applyLastLoadTakes code)[pc]? = some (.takeLocal i))
    (hpath : Unwritten (applyLastLoadTakes code) i (pc + 1) q) (hop : (applyLastLoadTakes code)[q]? = some op) :
    i ∉ op.reads := by
  intro hread
  obtain ⟨op', hop', hreads, -⟩ := flow_before_takes hop
  have hlive := live_of_unwritten hfused hcode (unwritten_before_takes hpath)
    (live_read hop' (by rwa [hreads]))
  have hlt := (List.getElem?_eq_some_iff.mp htaken).1
  rw [length_applyLastLoadTakes] at hlt
  have hload := getElem?_eq_getElem hlt
  obtain hsame | ⟨j, hj, hnot, htake⟩ := getElem?_applyLastLoadTakes hload
  · obtain heq := some.inj (hsame.symm.trans htaken)
    exact huntaken i (heq ▸ getElem_mem hlt)
  · rw [hj] at hload
    obtain heq := some.inj (htake.symm.trans htaken)
    injection heq with heq
    subst heq
    exact not_live_next hload hnot hlive

/-! ## The whole -/

theorem untaken_of_fused (h : Fused constants source code) (huntaken : ∀ i, .takeLocal i ∉ source) (i : Nat) :
    .takeLocal i ∉ code := by
  intro hmem
  apply huntaken i
  rw [← h.source]
  exact mem_map.mpr ⟨_, hmem, rfl⟩

theorem Agrees_trans {f f' f'' : Option Finish} (h : Option.Rel Finish.Agrees f f') (h' : Option.Rel Eq f' f'') :
    Option.Rel Finish.Agrees f f'' := by
  cases h with
  | none =>
    cases h'
    exact .none
  | some hagrees =>
    cases h' with
    | some heq =>
      subst heq
      exact .some hagrees

end Optimise

/-! ## The text of an error -/

section Text

/-- `fn f(r) { r.x }`. -/
def fieldProgram : Program where
  constants := [.fieldName "x"]
  functions := [⟨"f", 1, 1, [.loadLocal 0, .getField 0 0, .return], [], 0, [], 1⟩]
  functionNames _ := none
  recordShapes := []

def fieldCode : List Op := [.loadLocal 0, .getField 0 0, .return]

theorem unoptimised_fieldCode : Unoptimised fieldCode where
  primitive := by simp [Primitive, fieldCode, Op.absorbed]
  untaken := by simp [fieldCode]
  encoded := ⟨by decide, by simp [fieldCode, Op.offset?]⟩

theorem optimise_fieldCode :
    optimise fieldProgram.constants fieldCode = [.loadLocalGetField 0 0 0, .getField 0 0, .return] := rfl

/-- The frame of `f(1)`. -/
def fieldFocus : Focus := ⟨⟨[], [.int 1], [], [], fun _ _ => none⟩, 0, stackRecordBudgetSlots⟩

end Text

end LexLang.Machine
