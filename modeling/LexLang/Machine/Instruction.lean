/-
# LexLang.Machine.Instruction — the instructions that stay in their frame

The arms of the dispatch loop (`lex-bytecode/src/vm/dispatch.rs`) that call nothing: they work on the operand
stack, the frame's locals, the two slabs and the inline caches, and say where to go on. An instruction that
fails leaves what it did up to there.
-/
import LexLang.Machine.Refinement

namespace LexLang.Machine

/-! ## What an instruction works on -/

/-- The operand stack comes top first. -/
structure Memory where
  stack : List Value
  localsStorage : List Value
  stackRecordArena : List Value
  arenaSlab : List Value
  -- of each function and site: the shape that was read there last, and where the field is in it
  fieldIcs : Nat → Nat → Option (Nat × Nat)

structure Focus where
  memory : Memory
  pc : Nat
  -- how many slots of the slab the frame may still take
  stackRecordBudgetRemaining : Nat

/-- What an instruction knows of its frame. -/
structure Place where
  fnId : Nat
  localsStart : Nat
  -- a request scope is open
  arenaScopeActive : Bool

abbrev Exec := EStateM (Fault VmError) Focus

namespace Exec

def fail {α : Type} (e : VmError) : Exec α := throw (.err e)

def mismatch {α : Type} (text : String) (values : List Value) : Exec α := fail (.typeMismatch ⟨text, values⟩)

/-- Where the host panics unless there is a value. -/
def require {α : Type} : Option α → Exec α
  | some a => pure a
  | none => throw .panicked

def onMemory (f : Memory → Memory) : Exec Unit := modify fun s => { s with memory := f s.memory }

def push (v : Value) : Exec Unit := onMemory fun m => { m with stack := v :: m.stack }

def pop : Exec Value := do
  match (← get).memory.stack with
  | [] => fail .stackUnderflow
  | v :: rest =>
    onMemory fun m => { m with stack := rest }
    pure v

/-- The values come in the order they were pushed. -/
def popN : Nat → Exec (List Value)
  | 0 => pure []
  | n + 1 => do
    let v ← pop
    let vs ← popN n
    pure (vs ++ [v])

def popInt : Exec Int64 := do require (← pop).asInt?

def popFloat : Exec Float := do require (← pop).asFloat?

def popBool : Exec Bool := do require (← pop).asBool?

def popStr : Exec String := do require (← pop).asStr?

def load (place : Place) (i : Nat) : Exec Value := do
  require (← get).memory.localsStorage[place.localsStart + i]?

def store (place : Place) (i : Nat) (v : Value) : Exec Unit := do
  let locals := (← get).memory.localsStorage
  if place.localsStart + i < locals.length then
    onMemory fun m => { m with localsStorage := m.localsStorage.set (place.localsStart + i) v }
  else throw .panicked

def loadInt (place : Place) (i : Nat) : Exec Int64 := do require (← load place i).asInt?

def setPc (pc : Nat) : Exec Unit := modify fun s => { s with pc := pc }

/-- A jump in front of the code wraps around, to where no code is. -/
def jumpTo (target : Int) : Exec Unit := setPc (target % 2 ^ 64).toNat

end Exec

open Exec

/-! ## Constants -/

variable (program : Program)

def const (i : Nat) : Exec Const := require program.constants[i]?

def fieldName (i : Nat) : Exec String := do
  match ← const program i with
  | .fieldName s => pure s
  | _ => mismatch "expected FieldName const" []

def variantName (i : Nat) : Exec String := do
  match ← const program i with
  | .variantName s => pure s
  | _ => mismatch "expected VariantName const" []

def intConst (text : String) (i : Nat) : Exec Int64 := do
  match ← const program i with
  | .int n => pure n
  | _ => mismatch text []

/-! ## Records -/

/-- `IndexMap::insert`: a name that is there keeps its place. -/
def insertField (fields : List (String × Value)) (name : String) (v : Value) : List (String × Value) :=
  if name ∈ fields.map Prod.fst then fields.map fun field => if field.1 = name then (name, v) else field
  else fields ++ [(name, v)]

def nameFields (shape : List Nat) : Nat → List Value → List (String × Value) → Exec (List (String × Value))
  | _, [], fields => pure fields
  | i, v :: vs, fields => do
    let name ← fieldName program (← require shape[i]?)
    nameFields shape (i + 1) vs (insertField fields name v)

/-- The arm of `MakeRecord`, which the two other allocations fall back on. -/
def makeRecord (shapeIdx fieldCount : Nat) : Exec Unit := do
  let shape ← require program.recordShapes[shapeIdx]?
  let values ← popN fieldCount
  let fields ← nameFields program shape 0 values []
  push (.record shapeIdx fields)

/-- One of the two slabs. -/
structure Slab where
  cells : Memory → List Value
  update : (List Value → List Value) → Memory → Memory

def Slab.stack : Slab := ⟨Memory.stackRecordArena, fun f m => { m with stackRecordArena := f m.stackRecordArena }⟩

def Slab.arena : Slab := ⟨Memory.arenaSlab, fun f m => { m with arenaSlab := f m.arenaSlab }⟩

def fill (slab : Slab) (start : Nat) : Nat → Exec Unit
  | 0 => pure ()
  | n + 1 => do
    let v ← pop
    onMemory (slab.update (·.set (start + n) v))
    fill slab start n

/-- Move the top `n` values into a slab. The result is where they start. -/
def allocate (slab : Slab) (n : Nat) : Exec Nat := do
  let start := (slab.cells (← get).memory).length
  onMemory (slab.update (· ++ List.replicate n .unit))
  fill slab start n
  pure start

/-- What an allocation in the frame's slab costs, or the fallback where the frame cannot pay. -/
def withStackBudget (cost : Nat) (fallback alloc : Exec Unit) : Exec Unit := do
  let remaining := (← get).stackRecordBudgetRemaining
  if remaining < cost then fallback
  else do
    modify fun s => { s with stackRecordBudgetRemaining := remaining - cost }
    alloc

/-- The id of a record without a shape. -/
def noShapeId : Nat := 0xFFFFFFFF

def resolveStackField (shapeId nameIdx : Nat) : Exec Nat := do
  let shape ← require program.recordShapes[shapeId]?
  let name ← fieldName program nameIdx
  let named : Nat → Bool := fun i =>
    match program.constants[i]? with
    | some (.fieldName s) => s == name
    | _ => false
  match shape.findIdx? named with
  | some off => pure off
  | none => mismatch ("missing field " ++ name ++ " on stack record") []

def readSlab (slab : Slab) (cached : Option (Nat × Nat)) (shapeId slabStart fieldCount nameIdx : Nat) :
    Exec (Value × Option (Nat × Nat)) := do
  let miss : Exec (Value × Option (Nat × Nat)) := do
    let off ← resolveStackField program shapeId nameIdx
    let v ← require (slab.cells (← get).memory)[slabStart + off]?
    pure (v, some (shapeId, off))
  match cached with
  | some (cachedShape, off) =>
    if cachedShape = shapeId ∧ off % 2 ^ 16 < fieldCount then do
      let v ← require (slab.cells (← get).memory)[slabStart + off]?
      pure (v, none)
    else miss
  | none => miss

/-- What a slot says about a record on the heap. -/
def cachedField (cached : Option (Nat × Nat)) (shapeId nameIdx : Nat) (fields : List (String × Value)) :
    Option Value := do
  let (cachedShape, off) ← cached
  if cachedShape = shapeId then
    let field ← fields[off]?
    if shapeId ≠ noShapeId then some field.2
    else
      -- two records without a shape may have different fields
      match program.constants[nameIdx]? with
      | some (.fieldName s) => if s = field.1 then some field.2 else none
      | _ => none
  else none

def readHeap (cached : Option (Nat × Nat)) (shapeId nameIdx : Nat) (fields : List (String × Value)) :
    Exec (Value × Option (Nat × Nat)) := do
  match cachedField program cached shapeId nameIdx fields with
  | some v => pure (v, none)
  | none =>
    let name ← fieldName program nameIdx
    match fields.findIdx? (·.1 == name) with
    | none => mismatch ("missing field " ++ name) []
    | some off =>
      let field ← require fields[off]?
      pure (field.2, some (shapeId, off))

/-- Read a field of a record through the slot of the site. -/
def readField (place : Place) (text : String) (nameIdx siteIdx : Nat) (record : Value) : Exec Value := do
  let f ← require program.functions[place.fnId]?
  if siteIdx < f.fieldIcSites then
    let cached := (← get).memory.fieldIcs place.fnId siteIdx
    let (v, install) ←
      match record with
      | .record shapeId fields => readHeap program cached shapeId nameIdx fields
      | .stackRecord shapeId slabStart fieldCount =>
        readSlab program .stack cached shapeId slabStart fieldCount nameIdx
      | .arenaRecord shapeId slabStart fieldCount =>
        readSlab program .arena cached shapeId slabStart fieldCount nameIdx
      | other => mismatch (text ++ " on non-record: ") [other]
    match install with
    | none => pure v
    | some entry =>
      onMemory fun m =>
        { m with
          fieldIcs := fun fnId site =>
            if fnId = place.fnId ∧ site = siteIdx then some entry else m.fieldIcs fnId site }
      pure v
  else throw .panicked

/-! ## Operators -/

def binInt (f : Int64 → Int64 → Value) : Exec Unit := do
  let b ← popInt
  let a ← popInt
  push (f a b)

def binFloat (f : Float → Float → Value) : Exec Unit := do
  let b ← popFloat
  let a ← popFloat
  push (f a b)

/-- The division of integers, with its guard. `/` and `%` of `Int64` wrap. -/
def intDivmod (isMod : Bool) (a b : Int64) : Exec Unit :=
  if b = 0 then fail (.divByZero (if isMod then "modulo" else "division"))
  else push (.int (if isMod then a % b else a / b))

def binIntDivmod (isMod : Bool) : Exec Unit := do
  let b ← popInt
  let a ← popInt
  intDivmod isMod a b

def numDivmod (host : Host) (isMod : Bool) : Exec Unit := do
  let b ← pop
  let a ← pop
  match a, b with
  | .int x, .int y => intDivmod isMod x y
  | .float x, .float y => push (.float (if isMod then host.floatMod x y else x / y))
  | a, b => mismatch "Num op: " [a, b]

def binNum (i : Int64 → Int64 → Value) (f : Float → Float → Value) : Exec Unit := do
  let b ← pop
  let a ← pop
  match a, b with
  | .int x, .int y => push (i x y)
  | .float x, .float y => push (f x y)
  | a, b => mismatch "Num op: " [a, b]

/-- Numbers and strings. -/
def binOrd (i : Int64 → Int64 → Value) (f : Float → Float → Value) (s : String → String → Value) :
    Exec Unit := do
  let b ← pop
  let a ← pop
  match a, b with
  | .int x, .int y => push (i x y)
  | .float x, .float y => push (f x y)
  | .str x, .str y => push (s x y)
  | a, b => mismatch "Num op: " [a, b]

def numNeg : Exec Unit := do
  match ← pop with
  | .int n => push (.int (-n))
  | .float x => push (.float (-x))
  | other => mismatch "NumNeg on " [other]

def binEq : Exec Unit := do
  let b ← pop
  let a ← pop
  push (.bool (← require (a.eq b)))

def binBool (f : Bool → Bool → Bool) : Exec Unit := do
  let b ← popBool
  let a ← popBool
  push (.bool (f a b))

/-! ## Tuples, variants and lists -/

def getElem (i : Nat) : Exec Unit := do
  match ← pop with
  | .tuple items =>
    match items[i]? with
    | some v => push v
    | none => mismatch ("tuple index " ++ toString i ++ " out of range") []
  | .stackTuple slabStart arity =>
    if i < arity then push (← require (← get).memory.stackRecordArena[slabStart + i]?)
    else mismatch ("tuple index " ++ toString i ++ " out of range") []
  | .arenaTuple slabStart arity =>
    if i < arity then push (← require (← get).memory.arenaSlab[slabStart + i]?)
    else mismatch ("tuple index " ++ toString i ++ " out of range") []
  | other => mismatch "GetElem on non-tuple: " [other]

def testVariant (nameIdx : Nat) : Exec Unit := do
  let name ← variantName program nameIdx
  match ← pop with
  | .variant vname _ => push (.bool (vname == name))
  | other => mismatch "TestVariant on non-variant: " [other]

def getVariant : Exec Unit := do
  match ← pop with
  | .variant _ args => push (.tuple args)
  | other => mismatch "GetVariant on non-variant: " [other]

def getVariantArg (i : Nat) : Exec Unit := do
  match ← pop with
  | .variant _ args =>
    match args[i]? with
    | some v => push v
    | none => mismatch "variant arg index oob" []
  | other => mismatch "GetVariantArg on non-variant: " [other]

def getListLen : Exec Unit := do
  match ← pop with
  | .list items => push (.int (.ofNat items.length))
  | other => mismatch "GetListLen on non-list: " [other]

def getListElem (text : String) (i : Nat) : Exec Unit := do
  match ← pop with
  | .list items =>
    match items[i]? with
    | some v => push v
    | none => mismatch "list index oob" []
  | other => mismatch (text ++ " on non-list: ") [other]

/-- A negative index is a large one. -/
def getListElemDyn : Exec Unit := do
  match ← pop with
  | .int n => getListElem "GetListElemDyn" n.toUInt64.toNat
  | other => mismatch "GetListElemDyn idx: " [other]

def listAppend : Exec Unit := do
  let value ← pop
  match ← pop with
  | .list items => push (.list (items ++ [value]))
  | other => mismatch "ListAppend on non-list: " [other]

def bytesLen : Exec Unit := do
  match ← pop with
  | .bytes data => push (.int (.ofNat data.length))
  | other => mismatch "BytesLen on " [other]

def bytesEq : Exec Unit := do
  let b ← pop
  let a ← pop
  match a, b with
  | .bytes x, .bytes y => push (.bool (x == y))
  | _, _ => mismatch "BytesEq operands" []

/-! ## Superinstructions

Each goes on behind the instructions it stands for, which are still in the code. -/

def fusedLocals (place : Place) (lhs rhs next : Nat) (f : Int64 → Int64 → Int64) : Exec Unit := do
  let a ← loadInt place lhs
  let b ← loadInt place rhs
  push (.int (f a b))
  setPc next

def fusedField (place : Place) (text : String) (localIdx nameIdx siteIdx next : Nat)
    (f : Int64 → Int64 → Int64) : Exec Unit := do
  let acc ← popInt
  let record ← load place localIdx
  let b ← require (← readField program place text nameIdx siteIdx record).asInt?
  push (.int (f acc b))
  setPc next

/-- Go on behind the window where the test succeeds, and from there by the offset where it fails. -/
def branch (holds : Bool) (next : Nat) (off : Int) : Exec Unit :=
  if holds then setPc next else jumpTo (next + off)

/-! ## The dispatch -/

variable (host : Host) (place : Place)

/-- **What an instruction at `pc` does**, once the frame is set to go on at `pc + 1`; `none` where it calls,
returns or hands over to the host. -/
def Op.exec? (pc : Nat) : Op → Option (Exec Unit)
  | .pushConst i => some do push (← const program i).toValue
  | .pop => some do let _ ← Exec.pop
  | .dup => some do
      match (← get).memory.stack with
      | [] => fail .stackUnderflow
      | v :: _ => push v
  | .loadLocal i => some do push (← load place i)
  | .takeLocal i => some do
      let v ← load place i
      store place i .unit
      push v
  | .storeLocal i => some do store place i (← Exec.pop)
  | .makeRecord shapeIdx fieldCount => some (Machine.makeRecord program shapeIdx fieldCount)
  | .allocStackRecord shapeIdx fieldCount => some <|
      withStackBudget fieldCount (Machine.makeRecord program shapeIdx fieldCount) do
        push (.stackRecord shapeIdx (← allocate .stack fieldCount) fieldCount)
  | .allocArenaRecord shapeIdx fieldCount => some <|
      if place.arenaScopeActive then do
        push (.arenaRecord shapeIdx (← allocate .arena fieldCount) fieldCount)
      else Machine.makeRecord program shapeIdx fieldCount
  | .makeTuple arity => some do push (.tuple (← popN arity))
  | .allocStackTuple arity => some <|
      withStackBudget arity (do push (.tuple (← popN arity))) do
        push (.stackTuple (← allocate .stack arity) arity)
  | .allocArenaTuple arity => some <|
      if place.arenaScopeActive then do push (.arenaTuple (← allocate .arena arity) arity)
      else do push (.tuple (← popN arity))
  | .makeList count => some do push (.list (← popN count))
  | .makeVariant nameIdx arity => some do
      let args ← popN arity
      push (.variant (← variantName program nameIdx) args)
  | .getField nameIdx siteIdx => some do
      push (← readField program place "GetField" nameIdx siteIdx (← Exec.pop))
  | .getElem i => some (Machine.getElem i)
  | .testVariant nameIdx => some (Machine.testVariant program nameIdx)
  | .getVariant _ => some Machine.getVariant
  | .getVariantArg i => some (Machine.getVariantArg i)
  | .getListLen => some Machine.getListLen
  | .getListElem i => some (Machine.getListElem "GetListElem" i)
  | .getListElemDyn => some Machine.getListElemDyn
  | .listAppend => some Machine.listAppend
  | .jump off => some (jumpTo (pc + 1 + off))
  | .jumpIf off => some do if ← popBool then jumpTo (pc + 1 + off)
  | .jumpIfNot off => some do if !(← popBool) then jumpTo (pc + 1 + off)
  | .makeClosure fnId captureCount => some do
      let captures ← popN captureCount
      let f ← require program.functions[fnId]?
      push (.closure fnId f.bodyHash captures)
  | .panic i => some do
      match ← const program i with
      | .str s => fail (.panic s)
      | _ => fail (.panic "panic")
  | .intAdd => some (binInt fun a b => .int (a + b))
  | .intSub => some (binInt fun a b => .int (a - b))
  | .intMul => some (binInt fun a b => .int (a * b))
  | .intDiv => some (binIntDivmod false)
  | .intMod => some (binIntDivmod true)
  | .intNeg => some do push (.int (-(← popInt)))
  | .intEq => some (binInt fun a b => .bool (a == b))
  | .intLt => some (binInt fun a b => .bool (a < b))
  | .intLe => some (binInt fun a b => .bool (a ≤ b))
  | .floatAdd => some (binFloat fun a b => .float (a + b))
  | .floatSub => some (binFloat fun a b => .float (a - b))
  | .floatMul => some (binFloat fun a b => .float (a * b))
  | .floatDiv => some (binFloat fun a b => .float (a / b))
  | .floatNeg => some do push (.float (-(← popFloat)))
  | .floatEq => some (binFloat fun a b => .bool (a == b))
  | .floatLt => some (binFloat fun a b => .bool (a < b))
  | .floatLe => some (binFloat fun a b => .bool (a ≤ b))
  | .numAdd => some (binOrd (fun a b => .int (a + b)) (fun a b => .float (a + b)) fun a b => .str (a ++ b))
  | .numSub => some (binNum (fun a b => .int (a - b)) fun a b => .float (a - b))
  | .numMul => some (binNum (fun a b => .int (a * b)) fun a b => .float (a * b))
  | .numDiv => some (numDivmod host false)
  | .numMod => some (numDivmod host true)
  | .numNeg => some Machine.numNeg
  | .numEq => some binEq
  | .numLt => some (binOrd (fun a b => .bool (a < b)) (fun a b => .bool (a < b)) fun a b => .bool (a < b))
  | .numLe => some (binOrd (fun a b => .bool (a ≤ b)) (fun a b => .bool (a ≤ b)) fun a b => .bool (a ≤ b))
  | .boolAnd => some (binBool (· && ·))
  | .boolOr => some (binBool (· || ·))
  | .boolNot => some do push (.bool !(← popBool))
  | .strConcat => some do
      let b ← Exec.pop
      let a ← Exec.pop
      push (.str ((← require a.asStr?) ++ (← require b.asStr?)))
  | .strLen => some do push (.int (.ofNat (← popStr).utf8ByteSize))
  | .strEq => some do
      let b ← Exec.pop
      let a ← Exec.pop
      push (.bool ((← require a.asStr?) == (← require b.asStr?)))
  | .bytesLen => some Machine.bytesLen
  | .bytesEq => some Machine.bytesEq
  | .loadLocalAddIntConst localIdx immConstIdx => some do
      let a ← loadInt place localIdx
      let b ← intConst program "LoadLocalAddIntConst expected Int const" immConstIdx
      push (.int (a + b))
      setPc (pc + 3)
  | .loadLocalAddIntConstStoreLocal src immConstIdx dest => some do
      let a ← loadInt place src
      let b ← intConst program "LoadLocalAddIntConstStoreLocal expected Int const" immConstIdx
      store place dest (.int (a + b))
      setPc (pc + 4)
  | .loadLocalAddLocal lhs rhs => some (fusedLocals place lhs rhs (pc + 3) (· + ·))
  | .loadLocalSubLocal lhs rhs => some (fusedLocals place lhs rhs (pc + 3) (· - ·))
  | .loadLocalMulLocal lhs rhs => some (fusedLocals place lhs rhs (pc + 3) (· * ·))
  | .loadLocalEqIntConstJumpIfNot localIdx immConstIdx jumpOffset => some do
      let a ← loadInt place localIdx
      let b ← intConst program "LoadLocalEqIntConstJumpIfNot expects Const::Int" immConstIdx
      branch (a == b) (pc + 4) jumpOffset
  | .loadLocalStoreEqIntConstJumpIfNot src dst immConstIdx jumpOffset => some do
      let a ← loadInt place src
      store place dst (.int a)
      let b ← intConst program "LoadLocalStoreEqIntConstJumpIfNot expects Const::Int" immConstIdx
      branch (a == b) (pc + 6) jumpOffset
  | .loadLocalGetFieldAdd localIdx nameIdx siteIdx => some <|
      fusedField program place "LoadLocalGetFieldAdd" localIdx nameIdx siteIdx (pc + 3) (· + ·)
  | .loadLocalGetFieldSub localIdx nameIdx siteIdx => some <|
      fusedField program place "LoadLocalGetFieldSub" localIdx nameIdx siteIdx (pc + 3) (· - ·)
  | .loadLocalGetFieldMul localIdx nameIdx siteIdx => some <|
      fusedField program place "LoadLocalGetFieldMul" localIdx nameIdx siteIdx (pc + 3) (· * ·)
  | .loadLocalGetField localIdx nameIdx siteIdx => some do
      let record ← load place localIdx
      push (← readField program place "LoadLocalGetField" nameIdx siteIdx record)
      setPc (pc + 2)
  | .call .. | .tailCall .. | .callClosure .. | .sortByKey | .parallelMap | .listMap | .listFilter
  | .listFold | .effectCall .. | .return => none

end LexLang.Machine
