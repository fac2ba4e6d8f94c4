/-
# LexLang.Machine.Superinstruction — one step for several

A superinstruction does what the instructions it stands for do one after the other, and ends where they end.
Where a value is not of the kind that they ask for, both fail, though not always with one text or at one point.
`simulates_of_fused` puts this together for the whole code.
-/
import LexLang.Machine.Peephole
import LexLang.Machine.Through

namespace LexLang.Machine

open LexLang.Transition Exec

/-! ## Running the parts -/

section Run

variable {α β : Type} {program : Program} {place : Place} {s : Focus}

theorem run_bind (x : Exec α) (f : α → Exec β) (s : Focus) : (x >>= f).run s =
    match x.run s with
    | .ok a s => (f a).run s
    | .error e s => .error e s := by
  show EStateM.bind x f s = _
  unfold EStateM.bind
  show _ = match x s with | .ok a s => f a s | .error e s => .error e s
  cases x s <;> rfl

theorem run_require (a : Option α) (s : Focus) : (require a).run s =
    match a with
    | some a => .ok a s
    | none => .error .panicked s := by
  cases a <;> rfl

theorem run_load (i : Nat) (s : Focus) : (load place i).run s =
    match s.memory.localsStorage[place.localsStart + i]? with
    | some v => .ok v s
    | none => .error .panicked s := by
  show (require s.memory.localsStorage[place.localsStart + i]?).run s = _
  cases s.memory.localsStorage[place.localsStart + i]? <;> rfl

theorem run_loadInt (i : Nat) (s : Focus) : (loadInt place i).run s =
    match s.memory.localsStorage[place.localsStart + i]? with
    | some (.int n) => .ok n s
    | _ => .error .panicked s := by
  unfold loadInt
  rw [run_bind, run_load]
  cases s.memory.localsStorage[place.localsStart + i]? with
  | none => rfl
  | some v => cases v <;> rfl

theorem run_store (i : Nat) (v : Value) (s : Focus) : (store place i v).run s =
    if place.localsStart + i < s.memory.localsStorage.length then
      .ok () { s with
        memory := { s.memory with localsStorage := s.memory.localsStorage.set (place.localsStart + i) v } }
    else .error .panicked s := by
  show (ite (place.localsStart + i < s.memory.localsStorage.length) _ _ : Exec Unit).run s = _
  split <;> rfl

theorem run_push (v : Value) (s : Focus) : (push v).run s =
    .ok () { s with memory := { s.memory with stack := v :: s.memory.stack } } := rfl

/-- A fused test goes on where the `JumpIfNot` at the end of its window would. -/
theorem run_branch (holds : Bool) (pc : Nat) (off : Int) (s : Focus) :
    (branch holds (pc + 1) off).run s = .ok () { s with pc := if holds then pc + 1 else jumpTarget pc off } := by
  cases holds with
  | true => rfl
  | false =>
    show (jumpTo ((pc + 1 : Nat) + off)).run s = _
    rfl

theorem run_intConst (text : String) {c : Nat} {n : Int64} (h : program.constants[c]? = some (.int n))
    (s : Focus) : (intConst program text c).run s = .ok n s := by
  unfold intConst Machine.const
  rw [run_bind, h]
  rfl

theorem run_const {c : Nat} {k : Const} (h : program.constants[c]? = some k) (s : Focus) :
    (Machine.const program c).run s = .ok k s := by
  unfold Machine.const
  rw [run_require, h]

theorem run_popInt (s : Focus) : popInt.run s =
    match s.memory.stack with
    | .int n :: stack => .ok n { s with memory := { s.memory with stack := stack } }
    | _ :: stack => .error .panicked { s with memory := { s.memory with stack := stack } }
    | [] => .error (.err .stackUnderflow) s := by
  rcases s with ⟨⟨stack, l, a, b, f⟩, pc, budget⟩
  cases stack with
  | nil => rfl
  | cons v stack => cases v <;> rfl

end Run

/-! ## Running an instruction -/

/-- What is made of the result of an instruction. -/
def ofResult : EStateM.Result (Fault VmError) Focus Unit → Turn Focus Asked Finish
  | .ok _ s => .next s
  | .error (.err e) _ => .done (.error e)
  | .error .panicked _ => .done .crashed

variable {stack : List Value}

section Turns

variable {program : Program} {host : Host} {place : Place} {op : Op} {s : Focus} {i c : Nat} {v : Value} {n : Int64}

theorem turnOf_exec {exec : Exec Unit} (h : op.exec? program host place s.pc = some exec) :
    turnOf program host place op s = ofResult (exec.run { s with pc := s.pc + 1 }) := by
  unfold turnOf
  rw [h]
  dsimp only
  unfold ofResult
  split <;> simp_all

/-- The frame, after an instruction that pushes a value. -/
def Focus.pushed (v : Value) (s : Focus) : Focus :=
  { s with pc := s.pc + 1, memory := { s.memory with stack := v :: s.memory.stack } }

theorem turnOf_loadLocal (h : s.memory.localsStorage[place.localsStart + i]? = some v) :
    turnOf program host place (.loadLocal i) s = .next (s.pushed v) := by
  rw [turnOf_exec rfl, run_bind, run_load, h]
  rfl

theorem turnOf_loadLocal_none (h : s.memory.localsStorage[place.localsStart + i]? = none) :
    turnOf program host place (.loadLocal i) s = .done .crashed := by
  rw [turnOf_exec rfl, run_bind, run_load, h]
  rfl

theorem turnOf_pushConst (h : program.constants[c]? = some (.int n)) :
    turnOf program host place (.pushConst c) s = .next (s.pushed (.int n)) := by
  rw [turnOf_exec rfl, run_bind, run_const h]
  rfl

/-- The frame, after an instruction that works on the operand stack alone. -/
def Focus.onStack (stack : List Value) (s : Focus) : Focus :=
  { s with pc := s.pc + 1, memory := { s.memory with stack := stack } }

theorem turnOf_binInt {f : Int64 → Int64 → Value} {x y : Value}
    (h : op.exec? program host place s.pc = some (binInt f)) (hstack : s.memory.stack = y :: x :: stack) :
    turnOf program host place op s =
      match x.asInt?, y.asInt? with
      | some a, some b => .next (s.onStack (f a b :: stack))
      | _, _ => .done .crashed := by
  rw [turnOf_exec h]
  unfold binInt
  rw [run_bind, run_popInt]
  rw [hstack]
  cases y with
  | int b =>
    cases x <;> rfl
  | _ =>
    cases x <;> rfl

theorem turnOf_storeLocal (hstack : s.memory.stack = v :: stack) : turnOf program host place (.storeLocal i) s =
      if place.localsStart + i < s.memory.localsStorage.length then
        .next { s with
          pc := s.pc + 1
          memory := { s.memory with
            stack := stack, localsStorage := s.memory.localsStorage.set (place.localsStart + i) v } }
      else .done .crashed := by
  have hpop : pop.run { s with pc := s.pc + 1 } = .ok v (s.onStack stack) := by
    rcases s with ⟨⟨stack', l, a, b, f⟩, pc, budget⟩
    obtain rfl : stack' = v :: stack := hstack
    rfl
  rw [turnOf_exec rfl, run_bind, hpop]
  dsimp only
  rw [run_store]
  unfold Focus.onStack
  split <;> rfl

theorem turnOf_jumpIfNot {b : Bool} {off : Int} (hstack : s.memory.stack = .bool b :: stack) :
    turnOf program host place (.jumpIfNot off) s =
      .next { s.onStack stack with pc := if b then s.pc + 1 else jumpTarget s.pc off } := by
  rcases s with ⟨⟨stack', l, a, b', f⟩, pc, budget⟩
  obtain rfl : stack' = .bool b :: stack := hstack
  cases b <;> rfl

end Turns

/-! ## Matching a superinstruction -/

/-- The run has met a value that is not of the kind that was asked for. -/
def Finish.Wrong : Finish → Prop
  | .error (.typeMismatch _) | .error .stackUnderflow | .crashed => True
  | _ => False

/-- **Two runs end alike**, except that of a value of the wrong kind they may say different things. -/
def Finish.Agrees (f g : Finish) : Prop := f = g ∨ (f.Wrong ∧ g.Wrong)

/-- What one turn has made of the frame, several turns of the code make of it. -/
inductive Matched (M : Transition.System Focus Asked Memory Finish) (s : Focus) : Turn Focus Asked Finish → Prop
  | next {k s'} (hsteps : M.Steps (k + 1) s s') : Matched M s (.next s')
  | done {k s₀ f g} (hsteps : M.Steps k s s₀) (hturn : M.turn s₀ = .done f) (hagrees : f.Agrees g) :
      Matched M s (.done g)

section Matched

variable {M : Transition.System Focus Asked Memory Finish} {s s' : Focus} {t : Turn Focus Asked Finish} {f g : Finish}

/-- First a turn of the code. -/
theorem Matched.head (h : M.turn s = .next s') (ht : Matched M s' t) : Matched M s t := by
  cases ht with
  | next hsteps => exact .next (.head h hsteps)
  | done hsteps hturn hagrees => exact .done (.head h hsteps) hturn hagrees

theorem Matched.last (h : M.turn s = .next s') : Matched M s (.next s') := .next (.one h)

theorem Matched.same (h : M.turn s = .done f) : Matched M s (.done f) := .done (.refl s) h (.inl rfl)

theorem Matched.wrong (h : M.turn s = .done f) (hf : f.Wrong) (hg : g.Wrong) : Matched M s (.done g) :=
  .done (.refl s) h (.inr ⟨hf, hg⟩)

end Matched

section Windows

variable {program : Program} {host : Host} {place : Place} {source : List Op} {s : Focus} {op : Op}
  {i j c dst : Nat} {off : Int}

theorem turn_eq (h : source[s.pc]? = some op) :
    (body program host place source).turn s = turnOf program host place op s := by
  show turn program host place source s = _
  unfold turn
  rw [h]

variable (program host place source) in
theorem turn_cases (s : Focus) : (source[s.pc]? = none ∧ (body program host place source).turn s = .done .crashed) ∨
      ∃ op, source[s.pc]? = some op ∧ (body program host place source).turn s = turnOf program host place op s := by
  cases h : source[s.pc]? with
  | none =>
    refine .inl ⟨rfl, ?_⟩
    show turn program host place source s = _
    unfold turn
    rw [h]
  | some op => exact .inr ⟨op, rfl, turn_eq h⟩

/-- `LoadLocal`, where the slot is there or not. -/
theorem matched_load {t : Turn Focus Asked Finish} (h : source[s.pc]? = some (.loadLocal i))
    (hsome : ∀ v, s.memory.localsStorage[place.localsStart + i]? = some v →
      Matched (body program host place source) (s.pushed v) t)
    (hnone : s.memory.localsStorage[place.localsStart + i]? = none → t = .done .crashed) :
    Matched (body program host place source) s t := by
  cases hv : s.memory.localsStorage[place.localsStart + i]? with
  | none =>
    rw [hnone hv]
    exact .same ((turn_eq h).trans (turnOf_loadLocal_none hv))
  | some v => exact .head ((turn_eq h).trans (turnOf_loadLocal hv)) (hsome v hv)

/-- An operator on the two integers on top, in which the code ends. -/
theorem matched_binInt {f : Int64 → Int64 → Value} {x y : Value}
    (h : source[s.pc]? = some op) (hop : op.exec? program host place s.pc = some (binInt f))
    (hstack : s.memory.stack = y :: x :: stack) :
    Matched (body program host place source) s
      (match x.asInt?, y.asInt? with
        | some a, some b => .next (s.onStack (f a b :: stack))
        | _, _ => .done .crashed) := by
  have hturn : (body program host place source).turn s = _ := (turn_eq h).trans (turnOf_binInt hop hstack)
  cases hx : x.asInt? with
  | none =>
    rw [hx] at hturn
    exact .same hturn
  | some a =>
    cases hy : y.asInt? with
    | none =>
      rw [hx, hy] at hturn
      exact .same hturn
    | some b =>
      rw [hx, hy] at hturn
      exact .last hturn

variable {n : Int64}

theorem matched_loadLocalAddIntConst (hc : program.constants[c]? = some (.int n))
    (h₀ : source[s.pc]? = some (.loadLocal i)) (h₁ : source[s.pc + 1]? = some (.pushConst c))
    (h₂ : source[s.pc + 1 + 1]? = some .intAdd) : Matched (body program host place source) s
      (turnOf program host place (.loadLocalAddIntConst i c) s) := by
  rw [turnOf_exec rfl, run_bind, run_loadInt]
  refine matched_load h₀ (fun v hv => ?_) fun hv => by rw [hv]; rfl
  refine .head ((turn_eq h₁).trans (turnOf_pushConst hc)) ?_
  have hadd : Matched (body program host place source) ((s.pushed v).pushed (.int n)) _ :=
    matched_binInt h₂ rfl rfl
  rw [hv]
  cases v with
  | int a =>
    dsimp only
    rw [run_bind, run_intConst _ hc]
    exact hadd
  | _ => exact hadd

theorem matched_loadLocalAddIntConstStoreLocal (hc : program.constants[c]? = some (.int n))
    (h₀ : source[s.pc]? = some (.loadLocal i)) (h₁ : source[s.pc + 1]? = some (.pushConst c))
    (h₂ : source[s.pc + 1 + 1]? = some .intAdd) (h₃ : source[s.pc + 1 + 1 + 1]? = some (.storeLocal dst)) :
    Matched (body program host place source) s
      (turnOf program host place (.loadLocalAddIntConstStoreLocal i c dst) s) := by
  rw [turnOf_exec rfl, run_bind, run_loadInt]
  refine matched_load h₀ (fun v hv => ?_) fun hv => by rw [hv]; rfl
  refine .head ((turn_eq h₁).trans (turnOf_pushConst hc)) ?_
  have hadd : turnOf program host place .intAdd ((s.pushed v).pushed (.int n)) = _ := turnOf_binInt rfl rfl
  dsimp only
  rw [hv]
  cases v with
  | int a =>
    dsimp only
    rw [run_bind, run_intConst _ hc]
    dsimp only
    rw [run_bind, run_store]
    refine .head ((turn_eq h₂).trans hadd) ?_
    have hstore : turnOf program host place (.storeLocal dst)
        (((s.pushed (.int a)).pushed (.int n)).onStack (.int (a + n) :: s.memory.stack)) = _ :=
      turnOf_storeLocal rfl
    unfold Focus.onStack Focus.pushed at hstore
    split at hstore
    · rename_i hin
      rw [if_pos hin]
      exact .last ((turn_eq h₃).trans hstore)
    · rename_i hin
      rw [if_neg hin]
      exact .same ((turn_eq h₃).trans hstore)
  | _ => exact .same ((turn_eq h₂).trans hadd)

theorem matched_fusedLocals {s₀ : Focus} {f : Int64 → Int64 → Int64} {fused : Op}
    (hfused : fused.exec? program host place s₀.pc = some (fusedLocals place i j (s₀.pc + 3) f))
    (hop : op.exec? program host place (s₀.pc + 1 + 1) = some (binInt fun a b => .int (f a b)))
    (h₀ : source[s₀.pc]? = some (.loadLocal i)) (h₁ : source[s₀.pc + 1]? = some (.loadLocal j))
    (h₂ : source[s₀.pc + 1 + 1]? = some op) :
    Matched (body program host place source) s₀ (turnOf program host place fused s₀) := by
  rw [turnOf_exec hfused]
  unfold fusedLocals
  rw [run_bind, run_loadInt]
  refine matched_load h₀ (fun v hv => ?_) fun hv => by rw [hv]; rfl
  dsimp only
  rw [hv]
  have hload : ∀ (a : Int64) (s : Focus), (loadInt place j >>= fun b => do
      push (.int (f a b))
      setPc (s₀.pc + 3)).run s =
        match s.memory.localsStorage[place.localsStart + j]? with
        | some (.int b) => .ok () { s.onStack (.int (f a b) :: s.memory.stack) with pc := s₀.pc + 3 }
        | _ => .error .panicked s := by
    intro a s
    rw [run_bind, run_loadInt]
    cases s.memory.localsStorage[place.localsStart + j]? with
    | none => rfl
    | some w => cases w <;> rfl
  refine matched_load (s := s₀.pushed v) h₁ (fun w hw => ?_) fun hw => ?_
  · have hbin : Matched (body program host place source) ((s₀.pushed v).pushed w) _ :=
      matched_binInt h₂ hop rfl
    have hslot : s₀.memory.localsStorage[place.localsStart + j]? = some w := hw
    cases v with
    | int a =>
      dsimp only
      rw [hload]
      dsimp only
      rw [hslot]
      cases w <;> exact hbin
    | _ => exact hbin
  · have hslot : s₀.memory.localsStorage[place.localsStart + j]? = none := hw
    cases v with
    | int a =>
      dsimp only
      rw [hload]
      dsimp only
      rw [hslot]
      rfl
    | _ => rfl

theorem matched_loadLocalEqIntConstJumpIfNot (hc : program.constants[c]? = some (.int n))
    (h₀ : source[s.pc]? = some (.loadLocal i)) (h₁ : source[s.pc + 1]? = some (.pushConst c))
    (h₂ : source[s.pc + 1 + 1]? = some .intEq) (h₃ : source[s.pc + 1 + 1 + 1]? = some (.jumpIfNot off)) :
    Matched (body program host place source) s
      (turnOf program host place (.loadLocalEqIntConstJumpIfNot i c off) s) := by
  rw [turnOf_exec rfl, run_bind, run_loadInt]
  refine matched_load h₀ (fun v hv => ?_) fun hv => by rw [hv]; rfl
  refine .head ((turn_eq h₁).trans (turnOf_pushConst hc)) ?_
  have heq : turnOf program host place .intEq ((s.pushed v).pushed (.int n)) = _ := turnOf_binInt rfl rfl
  dsimp only
  rw [hv]
  cases v with
  | int a =>
    dsimp only
    rw [run_bind, run_intConst _ hc]
    refine .head ((turn_eq h₂).trans heq) ?_
    have hjump : turnOf program host place (.jumpIfNot off)
        (((s.pushed (.int a)).pushed (.int n)).onStack (.bool (a == n) :: s.memory.stack)) = _ :=
      turnOf_jumpIfNot rfl
    dsimp only
    rw [run_branch]
    exact .last ((turn_eq h₃).trans hjump)
  | _ => exact .same ((turn_eq h₂).trans heq)

/-- `LoadLocal`, `StoreLocal`, `LoadLocal`, `PushConst`, `IntEq`, `JumpIfNot`. -/
theorem matched_loadLocalStoreEqIntConstJumpIfNot (hc : program.constants[c]? = some (.int n))
    (h₀ : source[s.pc]? = some (.loadLocal i)) (h₁ : source[s.pc + 1]? = some (.storeLocal dst))
    (h₂ : source[s.pc + 1 + 1]? = some (.loadLocal dst)) (h₃ : source[s.pc + 1 + 1 + 1]? = some (.pushConst c))
    (h₄ : source[s.pc + 1 + 1 + 1 + 1]? = some .intEq)
    (h₅ : source[s.pc + 1 + 1 + 1 + 1 + 1]? = some (.jumpIfNot off)) : Matched (body program host place source) s
      (turnOf program host place (.loadLocalStoreEqIntConstJumpIfNot i dst c off) s) := by
  have hfused : turnOf program host place (.loadLocalStoreEqIntConstJumpIfNot i dst c off) s = _ :=
    turnOf_exec rfl
  rw [run_bind, run_loadInt] at hfused
  dsimp only at hfused
  refine matched_load h₀ (fun v hv => ?_) fun hv => by rw [hfused, hv]; rfl
  have hstore : turnOf program host place (.storeLocal dst) (s.pushed v) = _ := turnOf_storeLocal rfl
  rw [hv] at hfused
  split at hstore
  · -- the slot that was stored is the one that is tested
    rename_i hin
    have hslot : place.localsStart + dst < s.memory.localsStorage.length := hin
    refine .head ((turn_eq h₁).trans hstore) ?_
    have htest : Matched (body program host place source)
        { s with
          pc := s.pc + 1 + 1
          memory := { s.memory with localsStorage := s.memory.localsStorage.set (place.localsStart + dst) v } } _ :=
      matched_loadLocalEqIntConstJumpIfNot hc h₂ h₃ h₄ h₅
    rw [turnOf_exec rfl, run_bind, run_loadInt] at htest
    dsimp only at htest
    rw [List.getElem?_set_self hslot] at htest
    rw [hfused]
    cases v with
    | int a =>
      dsimp only at htest ⊢
      rw [run_bind, run_intConst _ hc] at htest
      rw [run_bind, run_store]
      dsimp only
      rw [if_pos hslot]
      dsimp only at htest ⊢
      rw [run_bind, run_intConst _ hc]
      dsimp only
      rw [run_branch] at htest ⊢
      exact htest
    | _ => exact htest
  · rename_i hin
    have hslot : ¬place.localsStart + dst < s.memory.localsStorage.length := hin
    have hcrash : turnOf program host place (.loadLocalStoreEqIntConstJumpIfNot i dst c off) s =
        Turn.done .crashed := by
      rw [hfused]
      cases v with
      | int a =>
        dsimp only
        rw [run_bind, run_store]
        dsimp only
        rw [if_neg hslot]
        rfl
      | _ => rfl
    rw [hcrash]
    exact .same ((turn_eq h₁).trans hstore)

end Windows

/-! ## Reading a field -/

/-- A value was not of the kind that was asked for. -/
def Fault.Wrong : Fault VmError → Prop
  | .panicked | .err (.typeMismatch _) => True
  | _ => False

/-- The computation fails in no other way. -/
def Exec.OnlyWrong {α : Type} (x : Exec α) : Prop := ∀ s e s', x.run s = .error e s' → e.Wrong

namespace Exec.OnlyWrong

variable {α β : Type}

theorem pure (a : α) : OnlyWrong (pure a : Exec α) := fun _ _ _ h => nomatch h

theorem require : ∀ a : Option α, OnlyWrong (Exec.require a)
  | some a => OnlyWrong.pure a
  | none => fun _ _ _ h => by cases h; trivial

theorem mismatch (text : String) (values : List Value) : OnlyWrong (Exec.mismatch text values : Exec α) :=
  fun _ _ _ h => by cases h; trivial

theorem modify (f : Focus → Focus) : OnlyWrong (modify f : Exec Unit) := fun _ _ _ h => nomatch h

theorem bind {x : Exec α} {f : α → Exec β} (hx : OnlyWrong x) (hf : ∀ a, OnlyWrong (f a)) : OnlyWrong (x >>= f) := by
  intro s e s' h
  rw [run_bind] at h
  split at h
  · exact hf _ _ _ _ h
  · rename_i e' s'' hrun
    cases h
    exact hx _ _ _ hrun

theorem get_bind {f : Focus → Exec β} (hf : ∀ s, OnlyWrong (f s)) : OnlyWrong (get >>= f) :=
  fun s e s' h => hf s s e s' h

end Exec.OnlyWrong

section Fields

variable {program : Program} {host : Host} {place : Place} {source : List Op} {s s' : Focus} {op : Op}
  {i nameIdx siteIdx : Nat} {record v : Value}

theorem onlyWrong_fieldName (i : Nat) : OnlyWrong (fieldName program i) := by
  refine .bind (.require _) fun c => ?_
  split
  · exact .pure _
  · exact .mismatch _ _

theorem onlyWrong_readSlab (slab : Slab) (cached : Option (Nat × Nat)) (shapeId slabStart fieldCount : Nat) :
    OnlyWrong (readSlab program slab cached shapeId slabStart fieldCount nameIdx) := by
  have hread : ∀ (off : Nat) (install : Option (Nat × Nat)), OnlyWrong (do
      let v ← require (slab.cells (← get).memory)[slabStart + off]?
      Pure.pure (v, install) : Exec (Value × Option (Nat × Nat))) :=
    fun off install => .get_bind fun s => .bind (.require _) fun _ => .pure _
  have hmiss : OnlyWrong (do
      let off ← resolveStackField program shapeId nameIdx
      let v ← require (slab.cells (← get).memory)[slabStart + off]?
      Pure.pure (v, some (shapeId, off)) : Exec (Value × Option (Nat × Nat))) := by
    refine .bind (.bind (.require _) fun shape => .bind (onlyWrong_fieldName nameIdx) fun name => ?_) fun off =>
      hread off _
    dsimp only
    split
    · exact .pure _
    · exact .mismatch _ _
  unfold readSlab
  split
  · split
    · exact hread _ _
    · exact hmiss
  · exact hmiss

theorem onlyWrong_readHeap (cached : Option (Nat × Nat)) (shapeId : Nat) (fields : List (String × Value)) :
    OnlyWrong (readHeap program cached shapeId nameIdx fields) := by
  unfold readHeap
  split
  · exact .pure _
  · refine .bind (onlyWrong_fieldName nameIdx) fun name => ?_
    split
    · exact .mismatch _ _
    · exact .bind (.require _) fun _ => .pure _

/-- **A field that cannot be read is a value of the wrong kind.** -/
theorem onlyWrong_readField (text : String) : OnlyWrong (readField program place text nameIdx siteIdx record) := by
  refine .bind (.require _) fun f => ?_
  split
  · refine .get_bind fun s => ?_
    split <;> refine .bind ?_ ?_
    any_goals
      rintro ⟨v, install⟩
      dsimp only
      split
      · exact .pure _
      · exact .bind (.modify _) fun _ => .pure _
    · exact onlyWrong_readHeap _ _ _
    · exact onlyWrong_readSlab _ _ _ _ _
    · exact onlyWrong_readSlab _ _ _ _ _
    · exact .mismatch _ _
  · exact .require none

variable (program place nameIdx siteIdx record) in
/-- The two texts are told apart by a value that is no record, and by nothing else. -/
theorem readField_agrees (text text' : String) (s : Focus) :
    (readField program place text nameIdx siteIdx record).run s =
        (readField program place text' nameIdx siteIdx record).run s ∨
      ∃ e e', (readField program place text nameIdx siteIdx record).run s = .error e s ∧
        (readField program place text' nameIdx siteIdx record).run s = .error e' s := by
  have hother : (∀ shapeId fields, record ≠ .record shapeId fields) →
      (∀ shapeId start count, record ≠ .stackRecord shapeId start count) →
      (∀ shapeId start count, record ≠ .arenaRecord shapeId start count) →
      ∀ text, ∃ e, (readField program place text nameIdx siteIdx record).run s = .error e s := by
    intro hrecord hstack harena text
    unfold readField
    rw [run_bind, run_require]
    cases program.functions[place.fnId]? with
    | none => exact ⟨_, rfl⟩
    | some f =>
      dsimp only
      split
      · cases record with
        | record => exact absurd rfl (hrecord _ _)
        | stackRecord => exact absurd rfl (hstack _ _ _)
        | arenaRecord => exact absurd rfl (harena _ _ _)
        | _ => exact ⟨_, rfl⟩
      · exact ⟨_, rfl⟩
  cases record with
  | record | stackRecord | arenaRecord => exact .inl rfl
  | _ =>
    obtain ⟨e, he⟩ := hother (by simp) (by simp) (by simp) text
    obtain ⟨e', he'⟩ := hother (by simp) (by simp) (by simp) text'
    exact .inr ⟨e, e', he, he'⟩

/-- The frame goes on at `pc`, with this operand stack. -/
def Focus.placed (pc : Nat) (stack : List Value) (s : Focus) : Focus :=
  { s with pc := pc, memory := { s.memory with stack := stack } }

theorem fieldsApart_placed (pc : Nat) (stack : List Value) : FieldsApart (Focus.placed pc stack) :=
  ⟨fun _ => rfl, fun _ => rfl, fun _ => rfl, fun _ _ => rfl⟩

/-- Wherever the field is read, the result is the same. -/
theorem run_readField_placed (text : String) (pc : Nat) (stack : List Value) (s : Focus) :
    (readField program place text nameIdx siteIdx record).run (s.placed pc stack) =
      onResult (Focus.placed pc stack) ((readField program place text nameIdx siteIdx record).run s) :=
  through_readField (fieldsApart_placed pc stack) text nameIdx siteIdx record s

theorem placed_of_readField {text : String} {w : Value}
    (h : (readField program place text nameIdx siteIdx record).run s = .ok w s') :
    s'.placed s.pc s.memory.stack = s' := by
  have hstay : (readField program place text nameIdx siteIdx record).run s = _ :=
    run_readField_placed text s.pc s.memory.stack s
  rw [h] at hstay
  exact ((EStateM.Result.ok.inj hstay).2).symm

/-- A value that is read out of the record on top. -/
theorem turnOf_getField (s₁ : Focus) (hstack : s.memory.stack = record :: stack)
    (hplaced : s₁.placed (s.pc + 1) stack = s.onStack stack) :
    turnOf program host place (.getField nameIdx siteIdx) s =
      match (readField program place "GetField" nameIdx siteIdx record).run s₁ with
      | .ok w s₂ => .next (s₂.placed (s.pc + 1) (w :: stack))
      | .error e s₂ => ofResult (.error e s₂) := by
  have hpop : pop.run { s with pc := s.pc + 1 } = .ok record (s.onStack stack) := by
    rcases s with ⟨⟨stack', l, a, b, f⟩, pc, budget⟩
    obtain rfl : stack' = record :: stack := hstack
    rfl
  rw [turnOf_exec rfl, run_bind, hpop]
  dsimp only
  rw [run_bind, ← hplaced, run_readField_placed]
  cases (readField program place "GetField" nameIdx siteIdx record).run s₁ with
  | ok w s₂ => rfl
  | error e s₂ => cases e <;> rfl

theorem ofResult_wrong {e : Fault VmError} (h : e.Wrong) (s : Focus) :
    ∃ f : Finish, ofResult (.error e s) = .done f ∧ f.Wrong := by
  cases e with
  | panicked => exact ⟨_, rfl, trivial⟩
  | err e =>
    cases e with
    | typeMismatch => exact ⟨_, rfl, trivial⟩
    | _ => exact h.elim

/-- Where the code and the superinstruction both meet a value of the wrong kind. -/
theorem Matched.bothWrong {M : Transition.System Focus Asked Memory Finish} {e e' : Fault VmError} {s₁ s₂ : Focus}
    (h : M.turn s = ofResult (.error e s₁)) (he : e.Wrong) (he' : e'.Wrong) :
    Matched M s (ofResult (.error e' s₂)) := by
  obtain ⟨f, hf, hwrong⟩ := ofResult_wrong he s₁
  obtain ⟨g, hg, hwrong'⟩ := ofResult_wrong he' s₂
  rw [hg]
  exact .wrong (h.trans hf) hwrong hwrong'

theorem matched_loadLocalGetField (h₀ : source[s.pc]? = some (.loadLocal i))
    (h₁ : source[s.pc + 1]? = some (.getField nameIdx siteIdx)) : Matched (body program host place source) s
      (turnOf program host place (.loadLocalGetField i nameIdx siteIdx) s) := by
  rw [turnOf_exec rfl, run_bind, run_load]
  refine matched_load h₀ (fun v hv => ?_) fun hv => by rw [hv]; rfl
  dsimp only
  rw [hv]
  dsimp only
  rw [run_bind]
  have hturn : (body program host place source).turn (s.pushed v) = _ :=
    (turn_eq h₁).trans (turnOf_getField { s with pc := s.pc + 1 } rfl rfl)
  obtain hsame | ⟨e, e', he, he'⟩ :=
    readField_agrees program place nameIdx siteIdx v "GetField" "LoadLocalGetField" { s with pc := s.pc + 1 }
  · rw [← hsame]
    cases hread : (readField program place "GetField" nameIdx siteIdx v).run { s with pc := s.pc + 1 } with
    | ok w s₂ =>
      rw [hread] at hturn
      have hplaced := placed_of_readField hread
      dsimp only
      rw [run_bind, run_push, ← hplaced]
      exact .last hturn
    | error e s₂ =>
      rw [hread] at hturn
      have he := onlyWrong_readField _ _ _ _ hread
      exact .bothWrong hturn he he
  · rw [he] at hturn
    rw [he']
    exact .bothWrong hturn (onlyWrong_readField _ _ _ _ he) (onlyWrong_readField _ _ _ _ he')

/-- An operator that does not find an integer below the top. -/
theorem turnOf_binInt_wrong {f : Int64 → Int64 → Value}
    (h : op.exec? program host place s.pc = some (binInt f)) (hstack : s.memory.stack = v :: stack)
    (hint : ∀ a rest, stack ≠ .int a :: rest) : ∃ f : Finish, turnOf program host place op s = .done f ∧ f.Wrong := by
  rw [turnOf_exec h]
  unfold binInt
  rw [run_bind, run_popInt, hstack]
  dsimp only
  cases v with
  | int b =>
    cases stack with
    | nil => exact ⟨_, rfl, trivial⟩
    | cons w rest =>
      cases w with
      | int a => exact absurd rfl (hint a rest)
      | _ => exact ⟨_, rfl, trivial⟩
  | _ => exact ⟨_, rfl, trivial⟩

theorem matched_field_wrong {f : Int64 → Int64 → Value} {g : Finish} (hg : g.Wrong)
    (hop : op.exec? program host place (s.pc + 1 + 1) = some (binInt f))
    (h₀ : source[s.pc]? = some (.loadLocal i)) (h₁ : source[s.pc + 1]? = some (.getField nameIdx siteIdx))
    (h₂ : source[s.pc + 1 + 1]? = some op) (hint : ∀ a rest, s.memory.stack ≠ .int a :: rest) :
    Matched (body program host place source) s (.done g) := by
  cases hv : s.memory.localsStorage[place.localsStart + i]? with
  | none => exact .wrong ((turn_eq h₀).trans (turnOf_loadLocal_none hv)) trivial hg
  | some v =>
    refine .head ((turn_eq h₀).trans (turnOf_loadLocal hv)) ?_
    have hturn : (body program host place source).turn (s.pushed v) = _ :=
      (turn_eq h₁).trans (turnOf_getField { s with pc := s.pc + 1 } rfl rfl)
    cases hread : (readField program place "GetField" nameIdx siteIdx v).run { s with pc := s.pc + 1 } with
    | ok w s₂ =>
      rw [hread] at hturn
      refine .head hturn ?_
      obtain ⟨f', hf', hwrong⟩ : ∃ f : Finish,
          turnOf program host place op (s₂.placed (s.pc + 1 + 1) (w :: s.memory.stack)) = .done f ∧ f.Wrong :=
        turnOf_binInt_wrong hop rfl hint
      exact .wrong ((turn_eq h₂).trans hf') hwrong hg
    | error e s₂ =>
      rw [hread] at hturn
      obtain ⟨f', hf', hwrong⟩ := ofResult_wrong (onlyWrong_readField _ _ _ _ hread) s₂
      exact .wrong (hturn.trans hf') hwrong hg

theorem matched_fusedField {f : Int64 → Int64 → Int64} {fused : Op} {text : String}
    (hfused : fused.exec? program host place s.pc =
      some (fusedField program place text i nameIdx siteIdx (s.pc + 3) f))
    (hop : op.exec? program host place (s.pc + 1 + 1) = some (binInt fun a b => .int (f a b)))
    (h₀ : source[s.pc]? = some (.loadLocal i)) (h₁ : source[s.pc + 1]? = some (.getField nameIdx siteIdx))
    (h₂ : source[s.pc + 1 + 1]? = some op) :
    Matched (body program host place source) s (turnOf program host place fused s) := by
  rw [turnOf_exec hfused]
  unfold fusedField
  rw [run_bind, run_popInt]
  dsimp only
  split
  · -- the integer is there, and the field is read with the rest of the stack
    rename_i a s₁ hpop
    split at hpop
    · rename_i n stack hstack
      obtain ⟨rfl, rfl⟩ := EStateM.Result.ok.inj hpop
      rw [run_bind, run_load]
      refine matched_load h₀ (fun v hv => ?_) fun hv => by dsimp only; rw [hv]; rfl
      dsimp only
      rw [hv]
      dsimp only
      rw [run_bind]
      have hplace : (s.pushed v).memory.stack = v :: .int n :: stack := congrArg (v :: ·) hstack
      have hturn : (body program host place source).turn (s.pushed v) = _ := (turn_eq h₁).trans
        (turnOf_getField { s with pc := s.pc + 1, memory := { s.memory with stack := stack } } hplace rfl)
      obtain hsame | ⟨e, e', he, he'⟩ := readField_agrees program place nameIdx siteIdx v "GetField" text
        { s with pc := s.pc + 1, memory := { s.memory with stack := stack } }
      · rw [← hsame]
        cases hread : (readField program place "GetField" nameIdx siteIdx v).run
            { s with pc := s.pc + 1, memory := { s.memory with stack := stack } } with
        | ok w s₂ =>
          rw [hread] at hturn
          refine .head hturn ?_
          have hbin : Matched (body program host place source)
              (s₂.placed (s.pc + 1 + 1) (w :: .int n :: stack)) _ := matched_binInt h₂ hop rfl
          have hplaced := placed_of_readField hread
          dsimp only
          rw [run_bind, run_require, ← hplaced]
          cases w with
          | int b => exact hbin
          | _ => exact hbin
        | error e s₂ =>
          rw [hread] at hturn
          have he := onlyWrong_readField _ _ _ _ hread
          exact .bothWrong hturn he he
      · rw [he] at hturn
        rw [he']
        exact .bothWrong hturn (onlyWrong_readField _ _ _ _ he) (onlyWrong_readField _ _ _ _ he')
    · exact nomatch hpop
    · exact nomatch hpop
  · rename_i e s₁ hpop
    split at hpop
    · exact nomatch hpop
    · rename_i w stack hne hstack
      obtain ⟨rfl, rfl⟩ := EStateM.Result.error.inj hpop
      exact matched_field_wrong trivial hop h₀ h₁ h₂ fun a rest h =>
        hne a (List.cons.inj (hstack.symm.trans h)).1
    · rename_i hstack
      obtain ⟨rfl, rfl⟩ := EStateM.Result.error.inj hpop
      exact matched_field_wrong trivial hop h₀ h₁ h₂ fun a rest h => by rw [hstack] at h; cases h

end Fields

/-! ## Matching the code -/

section Code

variable {program : Program} {host : Host} {place : Place} {source code : List Op} {s : Focus} {op : Op}

variable {constants : List Const}

theorem isIntConst_iff {c : Nat} : isIntConst constants c = true ↔ ∃ n, constants[c]? = some (.int n) := by
  unfold isIntConst
  split
  · rename_i n h
    simp [h]
  · rename_i h
    refine iff_of_false (by simp) ?_
    rintro ⟨n, hn⟩
    exact h n hn

theorem getElem?_source {k : Nat} (h : Fused constants source code)
    (hop : code[k]? = some op) : source[k]? = some op.unfuse := by
  rw [← h.source, List.getElem?_map, hop]
  rfl

theorem Fused.behind {k : Nat} (h : Fused constants source code)
    (hop : code[k]? = some op) {i : Nat} {t : Op} (ht : op.absorbed[i]? = some t) :
    source[k + 1 + i]? = some t.unfuse :=
  getElem?_source h (prefix_drop_iff.mp (h.window k op hop) i t ht)

variable (h : Fused program.constants source code)
include h

/-- **What a superinstruction does, the instructions it stands for do one after the other.** -/
theorem matched_superinstruction (hop : code[s.pc]? = some op)
    (hfused : op.absorbed ≠ []) : Matched (body program host place source) s (turnOf program host place op s) := by
  have h₀ := getElem?_source h hop
  have hbehind := fun i t => h.behind hop (i := i) (t := t)
  have hconst := fun c hc => isIntConst_iff.mp (h.operand _ op c hop hc)
  cases op
  case loadLocalAddIntConst i c =>
    obtain ⟨n, hn⟩ := hconst c rfl
    exact matched_loadLocalAddIntConst hn h₀ (hbehind 0 _ rfl) (hbehind 1 _ rfl)
  case loadLocalAddIntConstStoreLocal i c dst =>
    obtain ⟨n, hn⟩ := hconst c rfl
    exact matched_loadLocalAddIntConstStoreLocal hn h₀ (hbehind 0 _ rfl) (hbehind 1 _ rfl) (hbehind 2 _ rfl)
  case loadLocalAddLocal i j => exact matched_fusedLocals rfl rfl h₀ (hbehind 0 _ rfl) (hbehind 1 .intAdd rfl)
  case loadLocalSubLocal i j => exact matched_fusedLocals rfl rfl h₀ (hbehind 0 _ rfl) (hbehind 1 .intSub rfl)
  case loadLocalMulLocal i j => exact matched_fusedLocals rfl rfl h₀ (hbehind 0 _ rfl) (hbehind 1 .intMul rfl)
  case loadLocalEqIntConstJumpIfNot i c off =>
    obtain ⟨n, hn⟩ := hconst c rfl
    exact matched_loadLocalEqIntConstJumpIfNot hn h₀ (hbehind 0 _ rfl) (hbehind 1 _ rfl) (hbehind 2 _ rfl)
  case loadLocalStoreEqIntConstJumpIfNot i dst c off =>
    obtain ⟨n, hn⟩ := hconst c rfl
    exact matched_loadLocalStoreEqIntConstJumpIfNot hn h₀ (hbehind 0 _ rfl) (hbehind 1 _ rfl) (hbehind 2 _ rfl)
      (hbehind 3 _ rfl) (hbehind 4 _ rfl)
  case loadLocalGetFieldAdd i n site => exact matched_fusedField rfl rfl h₀ (hbehind 0 _ rfl) (hbehind 1 .intAdd rfl)
  case loadLocalGetFieldSub i n site => exact matched_fusedField rfl rfl h₀ (hbehind 0 _ rfl) (hbehind 1 .intSub rfl)
  case loadLocalGetFieldMul i n site => exact matched_fusedField rfl rfl h₀ (hbehind 0 _ rfl) (hbehind 1 .intMul rfl)
  case loadLocalGetField i n site => exact matched_loadLocalGetField h₀ (hbehind 0 _ rfl)
  all_goals exact absurd rfl hfused

variable (host place) in
/-- What one turn makes of the frame, the code before makes of it. -/
theorem Fused.turn (s : Focus) : (body program host place source).turn s = (body program host place code).turn s ∨
      Matched (body program host place source) s ((body program host place code).turn s) := by
  obtain ⟨hnone, hturn⟩ | ⟨op, hop, hturn⟩ := turn_cases program host place code s
  · refine .inr ?_
    rw [hturn]
    obtain ⟨-, hsource⟩ | ⟨op, hop, -⟩ := turn_cases program host place source s
    · exact .same hsource
    · rw [← h.source, List.getElem?_map, hnone] at hop
      exact nomatch hop
  · rw [hturn]
    by_cases hfused : op.absorbed = []
    · have hsource := getElem?_source h hop
      rw [Op.unfuse_of_absorbed hfused] at hsource
      exact .inl (turn_eq hsource)
    · exact .inr (matched_superinstruction h hop hfused)

/-- **The passes keep what is seen of the code.** -/
theorem simulates_of_fused :
    Simulates (body program host place source) (body program host place code) Eq Finish.Agrees where
  next := by
    rintro s _ s' rfl hturn
    obtain hsame | hmatched := h.turn host place s
    · exact ⟨0, s', .one (hsame.trans hturn), rfl⟩
    · rw [hturn] at hmatched
      cases hmatched with
      | next hsteps => exact ⟨_, s', hsteps, rfl⟩
  ask := by
    rintro s _ s' e rfl hturn
    obtain hsame | hmatched := h.turn host place s
    · exact ⟨0, s, s', .refl s, hsame.trans hturn, fun a => rfl⟩
    · rw [hturn] at hmatched
      cases hmatched
  done := by
    rintro s _ g rfl hturn
    obtain hsame | hmatched := h.turn host place s
    · exact ⟨0, s, g, .refl s, hsame.trans hturn, .inl rfl⟩
    · rw [hturn] at hmatched
      cases hmatched with
      | done hsteps hdone hagrees => exact ⟨_, _, _, hsteps, hdone, hagrees⟩

end Code

end LexLang.Machine
