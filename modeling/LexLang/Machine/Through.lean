/-
# LexLang.Machine.Through — what an instruction leaves alone

A computation passes through a change of the state when it does the same on the changed state and keeps the
change. The instructions without a jump and without a slot pass through every change of the frame's slots and
of the place in the code; reading a field passes through a change of the operand stack as well.
-/
import LexLang.Machine.Body

namespace LexLang.Machine

/-! ## Changes -/

/-- The result of a computation, in a changed state. -/
def onResult {ε σ α : Type} (g : σ → σ) : EStateM.Result ε σ α → EStateM.Result ε σ α
  | .ok a s => .ok a (g s)
  | .error e s => .error e (g s)

/-- **The computation passes through the change.** -/
def Exec.Through {α : Type} (g : Focus → Focus) (x : Exec α) : Prop := ∀ s, x.run (g s) = onResult g (x.run s)

section Through

variable {α β : Type} {g : Focus → Focus}

namespace Exec.Through

theorem pure (a : α) : Through g (pure a : Exec α) := fun _ => rfl

theorem throw (e : Fault VmError) : Through g (throw e : Exec α) := fun _ => rfl

theorem bind {x : Exec α} {f : α → Exec β} (hx : Through g x) (hf : ∀ a, Through g (f a)) : Through g (x >>= f) := by
  intro s
  have hbind : ∀ s, (x >>= f).run s = EStateM.bind x f s := fun _ => rfl
  rw [hbind, hbind]
  unfold EStateM.bind
  have hstart : x (g s) = onResult g (x s) := hx s
  rw [hstart]
  cases x s with
  | ok a s => exact hf a s
  | error e s => rfl

theorem get_bind {f : Focus → Exec β} (hsame : ∀ s, f (g s) = f s) (hf : ∀ s, Through g (f s)) :
    Through g (get >>= f) := by
  intro s
  show (f (g s)).run (g s) = onResult g ((f s).run s)
  rw [hsame]
  exact hf s s

theorem modify {f : Focus → Focus} (hcomm : ∀ s, f (g s) = g (f s)) : Through g (modify f : Exec Unit) := by
  intro s
  show EStateM.Result.ok _ (f (g s)) = .ok _ (g (f s))
  rw [hcomm]

theorem require : ∀ a : Option α, Through g (Exec.require a)
  | some a => Exec.Through.pure a
  | none => Exec.Through.throw .panicked

theorem fail (e : VmError) : Through g (Exec.fail e : Exec α) := Exec.Through.throw (.err e)

theorem mismatch (text : String) (values : List Value) : Through g (Exec.mismatch text values : Exec α) :=
  Exec.Through.fail _

theorem ite {c : Prop} [Decidable c] {x y : Exec α} (hx : Through g x) (hy : Through g y) :
    Through g (if c then x else y) := by
  split
  · exact hx
  · exact hy

end Exec.Through

end Through

/-! ## The place in the code and the slots -/

/-- The frame goes on at `pc`, with these slots. -/
def Focus.moved (pc : Nat) (locals : List Value) (s : Focus) : Focus :=
  { s with pc := pc, memory := { s.memory with localsStorage := locals } }

/-- Neither the place in the code nor the slots are looked at, or changed. -/
def Exec.Aside {α : Type} (x : Exec α) : Prop := ∀ pc locals, Exec.Through (Focus.moved pc locals) x

section Aside

variable {α β : Type} {program : Program} {host : Host} {place : Place}

open Exec

namespace Exec.Aside

theorem pure (a : α) : Aside (pure a : Exec α) := fun _ _ => .pure a

theorem throw (e : Fault VmError) : Aside (throw e : Exec α) := fun _ _ => .throw e

theorem bind {x : Exec α} {f : α → Exec β} (hx : Aside x) (hf : ∀ a, Aside (f a)) : Aside (x >>= f) :=
  fun pc locals => (hx pc locals).bind fun a => hf a pc locals

theorem require (a : Option α) : Aside (Exec.require a) := fun _ _ => .require a

theorem fail (e : VmError) : Aside (Exec.fail e : Exec α) := fun _ _ => .fail e

theorem mismatch (text : String) (values : List Value) : Aside (Exec.mismatch text values : Exec α) :=
  fun _ _ => .mismatch text values

theorem ite {c : Prop} [Decidable c] {x y : Exec α} (hx : Aside x) (hy : Aside y) :
    Aside (if c then x else y) := fun pc locals => (hx pc locals).ite (hy pc locals)

theorem get_bind {f : Focus → Exec β} (hsame : ∀ pc locals s, f (s.moved pc locals) = f s)
    (hf : ∀ s, Aside (f s)) : Aside (get >>= f) :=
  fun pc locals => .get_bind (hsame pc locals) fun s => hf s pc locals

theorem onMemory {f : Memory → Memory}
    (hcomm : ∀ (m : Memory) l, f { m with localsStorage := l } = { f m with localsStorage := l }) :
    Aside (Exec.onMemory f) := by
  intro pc locals
  refine .modify fun s => ?_
  unfold Focus.moved
  dsimp only
  rw [hcomm]

theorem push (v : Value) : Aside (Exec.push v) := .onMemory fun _ _ => rfl

theorem pop : Aside Exec.pop := by
  refine .get_bind (fun _ _ _ => rfl) fun s => ?_
  split
  · exact .fail _
  · exact .bind (.onMemory fun _ _ => rfl) fun _ => .pure _

theorem popN : ∀ n, Aside (Exec.popN n)
  | 0 => .pure _
  | n + 1 => .bind .pop fun _ => .bind (popN n) fun _ => .pure _

theorem popInt : Aside Exec.popInt := .bind .pop fun _ => .require _

theorem popFloat : Aside Exec.popFloat := .bind .pop fun _ => .require _

theorem popBool : Aside Exec.popBool := .bind .pop fun _ => .require _

theorem popStr : Aside Exec.popStr := .bind .pop fun _ => .require _

end Exec.Aside

/-! ### Constants and records -/

theorem aside_const (i : Nat) : Aside (const program i) := .require _

theorem aside_fieldName (i : Nat) : Aside (fieldName program i) := by
  refine .bind (aside_const i) fun c => ?_
  split
  · exact .pure _
  · exact .mismatch _ _

theorem aside_variantName (i : Nat) : Aside (variantName program i) := by
  refine .bind (aside_const i) fun c => ?_
  split
  · exact .pure _
  · exact .mismatch _ _

theorem aside_intConst (text : String) (i : Nat) : Aside (intConst program text i) := by
  refine .bind (aside_const i) fun c => ?_
  split
  · exact .pure _
  · exact .mismatch _ _

theorem aside_nameFields (shape : List Nat) : ∀ (i : Nat) (vs : List Value) (fields : List (String × Value)),
    Aside (nameFields program shape i vs fields)
  | _, [], _ => .pure _
  | _, _ :: vs, _ =>
    .bind (.require _) fun _ => .bind (aside_fieldName _) fun _ => aside_nameFields shape _ vs _

theorem aside_makeRecord (shapeIdx fieldCount : Nat) : Aside (makeRecord program shapeIdx fieldCount) :=
  .bind (.require _) fun _ => .bind (.popN _) fun _ => .bind (aside_nameFields _ _ _ _) fun _ => .push _

/-- A slab has nothing to do with the slots. -/
structure Slab.Apart (slab : Slab) : Prop where
  cells : ∀ (m : Memory) l, slab.cells { m with localsStorage := l } = slab.cells m
  update : ∀ f (m : Memory) l,
    slab.update f { m with localsStorage := l } = { slab.update f m with localsStorage := l }

theorem Slab.apart_stack : Slab.stack.Apart := ⟨fun _ _ => rfl, fun _ _ _ => rfl⟩

theorem Slab.apart_arena : Slab.arena.Apart := ⟨fun _ _ => rfl, fun _ _ _ => rfl⟩

theorem aside_fill {slab : Slab} (hslab : slab.Apart) (start : Nat) : ∀ n, Aside (fill slab start n)
  | 0 => .pure _
  | n + 1 =>
    .bind .pop fun _ => .bind (.onMemory fun m l => hslab.update _ m l) fun _ => aside_fill hslab start n

theorem aside_allocate {slab : Slab} (hslab : slab.Apart) (n : Nat) : Aside (allocate slab n) := by
  refine .get_bind (fun pc l s => ?_) fun s =>
    .bind (.onMemory fun m l => hslab.update _ m l) fun _ => .bind (aside_fill hslab _ n) fun _ => .pure _
  unfold Focus.moved
  dsimp only
  rw [hslab.cells]

theorem aside_withStackBudget {cost : Nat} {fallback alloc : Exec Unit} (hfallback : Aside fallback)
    (halloc : Aside alloc) : Aside (withStackBudget cost fallback alloc) := by
  refine .get_bind (fun _ _ _ => rfl) fun s => .ite hfallback (.bind ?_ fun _ => halloc)
  exact fun pc l => .modify fun s => rfl

/-! ### Fields -/

/-- A change that leaves the slabs and the inline caches alone. -/
structure FieldsApart (g : Focus → Focus) : Prop where
  stackRecordArena : ∀ s, (g s).memory.stackRecordArena = s.memory.stackRecordArena
  arenaSlab : ∀ s, (g s).memory.arenaSlab = s.memory.arenaSlab
  fieldIcs : ∀ s, (g s).memory.fieldIcs = s.memory.fieldIcs
  install : ∀ s fieldIcs, g { s with memory := { s.memory with fieldIcs := fieldIcs } } =
    { g s with memory := { (g s).memory with fieldIcs := fieldIcs } }

/-- One of the two slabs, read through the change. -/
theorem FieldsApart.cells {g : Focus → Focus} (h : FieldsApart g) {slab : Slab}
    (hslab : slab.cells = Memory.stackRecordArena ∨ slab.cells = Memory.arenaSlab) (s : Focus) :
    slab.cells (g s).memory = slab.cells s.memory := by
  obtain hcells | hcells := hslab
  · rw [hcells, h.stackRecordArena]
  · rw [hcells, h.arenaSlab]

section Fields

variable {g : Focus → Focus}

theorem through_fieldName (i : Nat) : Through g (fieldName program i) := by
  refine .bind (.require _) fun c => ?_
  split
  · exact .pure _
  · exact .mismatch _ _

theorem through_readSlab (h : FieldsApart g) {slab : Slab}
    (hslab : slab.cells = Memory.stackRecordArena ∨ slab.cells = Memory.arenaSlab)
    (cached : Option (Nat × Nat)) (shapeId slabStart fieldCount nameIdx : Nat) :
    Through g (readSlab program slab cached shapeId slabStart fieldCount nameIdx) := by
  have hread : ∀ (off : Nat) (install : Option (Nat × Nat)), Through g (do
      let v ← require (slab.cells (← get).memory)[slabStart + off]?
      Pure.pure (v, install) : Exec (Value × Option (Nat × Nat))) := by
    intro off install
    refine .get_bind (fun s => ?_) fun s => .bind (.require _) fun _ => .pure _
    rw [h.cells hslab]
  have hmiss : Through g (do
      let off ← resolveStackField program shapeId nameIdx
      let v ← require (slab.cells (← get).memory)[slabStart + off]?
      Pure.pure (v, some (shapeId, off)) : Exec (Value × Option (Nat × Nat))) := by
    refine .bind (.bind (.require _) fun shape => .bind (through_fieldName nameIdx) fun name => ?_) fun off =>
      hread off _
    dsimp only
    split
    · exact .pure _
    · exact .mismatch _ _
  unfold readSlab
  dsimp only
  split
  · exact .ite (hread _ _) hmiss
  · exact hmiss

theorem through_readHeap (cached : Option (Nat × Nat)) (shapeId nameIdx : Nat)
    (fields : List (String × Value)) : Through g (readHeap program cached shapeId nameIdx fields) := by
  unfold readHeap
  split
  · exact .pure _
  · refine .bind (through_fieldName nameIdx) fun name => ?_
    split
    · exact .mismatch _ _
    · exact .bind (.require _) fun _ => .pure _

/-- Reading a field passes through what leaves the slabs and the caches alone. -/
theorem through_readField (h : FieldsApart g) (text : String) (nameIdx siteIdx : Nat) (record : Value) :
    Through g (readField program place text nameIdx siteIdx record) := by
  refine .bind (.require _) fun f => .ite (.get_bind (fun s => ?_) fun s => ?_) (.throw _)
  · rw [h.fieldIcs]
  · dsimp only
    split <;> refine .bind ?_ ?_
    -- a field that was looked for is remembered at its site
    any_goals
      rintro ⟨v, install⟩
      dsimp only
      split
      · exact .pure _
      · refine .bind (.modify fun s => .trans ?_ (h.install s _).symm) fun _ => .pure _
        rw [← h.fieldIcs s]
    · exact through_readHeap _ _ _ _
    · exact through_readSlab h (.inl rfl) _ _ _ _ _
    · exact through_readSlab h (.inr rfl) _ _ _ _ _
    · exact .mismatch _ _

end Fields

theorem fieldsApart_moved (pc : Nat) (locals : List Value) : FieldsApart (Focus.moved pc locals) :=
  ⟨fun _ => rfl, fun _ => rfl, fun _ => rfl, fun _ _ => rfl⟩

theorem aside_readField (text : String) (nameIdx siteIdx : Nat) (record : Value) :
    Aside (readField program place text nameIdx siteIdx record) :=
  fun pc locals => through_readField (fieldsApart_moved pc locals) text nameIdx siteIdx record

/-! ### Operators and parts -/

theorem aside_binInt (f : Int64 → Int64 → Value) : Aside (binInt f) :=
  .bind .popInt fun _ => .bind .popInt fun _ => .push _

theorem aside_binFloat (f : Float → Float → Value) : Aside (binFloat f) :=
  .bind .popFloat fun _ => .bind .popFloat fun _ => .push _

theorem aside_intDivmod (isMod : Bool) (a b : Int64) : Aside (intDivmod isMod a b) :=
  .ite (.fail _) (.push _)

theorem aside_binIntDivmod (isMod : Bool) : Aside (binIntDivmod isMod) :=
  .bind .popInt fun _ => .bind .popInt fun _ => aside_intDivmod _ _ _

theorem aside_numDivmod (isMod : Bool) : Aside (numDivmod host isMod) := by
  refine .bind .pop fun b => .bind .pop fun a => ?_
  split
  · exact aside_intDivmod _ _ _
  · exact .push _
  · exact .mismatch _ _

theorem aside_binNum (i : Int64 → Int64 → Value) (f : Float → Float → Value) : Aside (binNum i f) := by
  refine .bind .pop fun b => .bind .pop fun a => ?_
  split
  · exact .push _
  · exact .push _
  · exact .mismatch _ _

theorem aside_binOrd (i : Int64 → Int64 → Value) (f : Float → Float → Value) (s : String → String → Value) :
    Aside (binOrd i f s) := by
  refine .bind .pop fun b => .bind .pop fun a => ?_
  split
  · exact .push _
  · exact .push _
  · exact .push _
  · exact .mismatch _ _

theorem aside_numNeg : Aside numNeg := by
  refine .bind .pop fun v => ?_
  split
  · exact .push _
  · exact .push _
  · exact .mismatch _ _

theorem aside_binEq : Aside binEq :=
  .bind .pop fun _ => .bind .pop fun _ => .bind (.require _) fun _ => .push _

theorem aside_binBool (f : Bool → Bool → Bool) : Aside (binBool f) :=
  .bind .popBool fun _ => .bind .popBool fun _ => .push _

theorem aside_getElem (i : Nat) : Aside (Machine.getElem i) := by
  refine .bind .pop fun v => ?_
  split
  · split
    · exact .push _
    · exact .mismatch _ _
  · exact .ite (.get_bind (fun _ _ _ => rfl) fun s => .bind (.require _) fun _ => .push _) (.mismatch _ _)
  · exact .ite (.get_bind (fun _ _ _ => rfl) fun s => .bind (.require _) fun _ => .push _) (.mismatch _ _)
  · exact .mismatch _ _

theorem aside_testVariant (nameIdx : Nat) : Aside (testVariant program nameIdx) := by
  refine .bind (aside_variantName _) fun name => .bind .pop fun v => ?_
  split
  · exact .push _
  · exact .mismatch _ _

theorem aside_getVariant : Aside getVariant := by
  refine .bind .pop fun v => ?_
  split
  · exact .push _
  · exact .mismatch _ _

theorem aside_getVariantArg (i : Nat) : Aside (getVariantArg i) := by
  refine .bind .pop fun v => ?_
  split
  · split
    · exact .push _
    · exact .mismatch _ _
  · exact .mismatch _ _

theorem aside_getListLen : Aside getListLen := by
  refine .bind .pop fun v => ?_
  split
  · exact .push _
  · exact .mismatch _ _

theorem aside_getListElem (text : String) (i : Nat) : Aside (getListElem text i) := by
  refine .bind .pop fun v => ?_
  split
  · split
    · exact .push _
    · exact .mismatch _ _
  · exact .mismatch _ _

theorem aside_getListElemDyn : Aside getListElemDyn := by
  refine .bind .pop fun v => ?_
  split
  · exact aside_getListElem _ _
  · exact .mismatch _ _

theorem aside_listAppend : Aside listAppend := by
  refine .bind .pop fun v => .bind .pop fun xs => ?_
  split
  · exact .push _
  · exact .mismatch _ _

theorem aside_bytesLen : Aside bytesLen := by
  refine .bind .pop fun v => ?_
  split
  · exact .push _
  · exact .mismatch _ _

theorem aside_bytesEq : Aside bytesEq := by
  refine .bind .pop fun b => .bind .pop fun a => ?_
  split
  · exact .push _
  · exact .mismatch _ _

/-! ### Instructions -/

/-- An instruction that jumps, or works on a slot. -/
def Op.isMobile : Op → Bool
  | .loadLocal _ | .storeLocal _ | .takeLocal _ | .jump _ | .jumpIf _ | .jumpIfNot _
  | .loadLocalAddIntConst .. | .loadLocalAddIntConstStoreLocal .. | .loadLocalAddLocal ..
  | .loadLocalSubLocal .. | .loadLocalMulLocal .. | .loadLocalEqIntConstJumpIfNot ..
  | .loadLocalStoreEqIntConstJumpIfNot .. | .loadLocalGetFieldAdd .. | .loadLocalGetFieldSub ..
  | .loadLocalGetFieldMul .. | .loadLocalGetField .. => true
  | _ => false

/-- **Every other instruction leaves the place in the code and the slots alone**, wherever it stands. -/
theorem aside_exec {op : Op} (h : op.isMobile = false) (pc : Nat) {exec : Exec Unit}
    (hexec : op.exec? program host place pc = some exec) : Aside exec := by
  cases op <;> cases h <;> cases hexec
  case pushConst => exact .bind (aside_const _) fun _ => .push _
  case pop => exact .bind .pop fun _ => .pure _
  case dup =>
    refine .get_bind (fun _ _ _ => rfl) fun s => ?_
    split
    · exact .fail _
    · exact .push _
  case allocStackRecord =>
    exact aside_withStackBudget (aside_makeRecord _ _)
      (.bind (aside_allocate Slab.apart_stack _) fun _ => .push _)
  case allocArenaRecord =>
    exact .ite (.bind (aside_allocate Slab.apart_arena _) fun _ => .push _) (aside_makeRecord _ _)
  case allocStackTuple =>
    exact aside_withStackBudget (.bind (.popN _) fun _ => .push _)
      (.bind (aside_allocate Slab.apart_stack _) fun _ => .push _)
  case allocArenaTuple =>
    exact .ite (.bind (aside_allocate Slab.apart_arena _) fun _ => .push _)
      (.bind (.popN _) fun _ => .push _)
  case makeVariant => exact .bind (.popN _) fun _ => .bind (aside_variantName _) fun _ => .push _
  case getField => exact .bind .pop fun _ => .bind (aside_readField _ _ _ _) fun _ => .push _
  case makeClosure => exact .bind (.popN _) fun _ => .bind (.require _) fun _ => .push _
  case panic =>
    refine .bind (aside_const _) fun c => ?_
    split
    · exact .fail _
    · exact .fail _
  case strConcat | strEq =>
    exact .bind .pop fun _ => .bind .pop fun _ => .bind (.require _) fun _ => .bind (.require _) fun _ => .push _
  case makeRecord => exact aside_makeRecord _ _
  case makeTuple | makeList => exact .bind (.popN _) fun _ => .push _
  case getElem => exact aside_getElem _
  case testVariant => exact aside_testVariant _
  case getVariant => exact aside_getVariant
  case getVariantArg => exact aside_getVariantArg _
  case getListLen => exact aside_getListLen
  case getListElem => exact aside_getListElem _ _
  case getListElemDyn => exact aside_getListElemDyn
  case listAppend => exact aside_listAppend
  case intAdd | intSub | intMul | intEq | intLt | intLe => exact aside_binInt _
  case intDiv | intMod => exact aside_binIntDivmod _
  case intNeg => exact .bind .popInt fun _ => .push _
  case floatAdd | floatSub | floatMul | floatDiv | floatEq | floatLt | floatLe => exact aside_binFloat _
  case floatNeg => exact .bind .popFloat fun _ => .push _
  case numAdd | numLt | numLe => exact aside_binOrd _ _ _
  case numSub | numMul => exact aside_binNum _ _
  case numDiv | numMod => exact aside_numDivmod _
  case numNeg => exact aside_numNeg
  case numEq => exact aside_binEq
  case boolAnd | boolOr => exact aside_binBool _
  case boolNot => exact .bind .popBool fun _ => .push _
  case strLen => exact .bind .popStr fun _ => .push _
  case bytesLen => exact aside_bytesLen
  case bytesEq => exact aside_bytesEq

end Aside

end LexLang.Machine
