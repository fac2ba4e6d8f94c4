/-
# LexLang.Bytecode.InlineCache — reading record fields through inline caches

Every site that reads a field of a record has a slot: the shape id of the last record that was read
there, and the offset of the field in it (`lex-bytecode/src/vm/dispatch.rs`). A record that comes with
the same shape id is read at that offset, without a look at its names. Shape ids are handed out twice:
by the compiler, one for each list of names, and at run time by a registry that sorts the names first
(`shape_registry.rs`).

`run_eq_runPlain` says when the caches do not show: when every record from the registry that meets
its own shape id in a slot has the field at the slot's offset.
-/
import Mathlib.Data.List.Sort
import Mathlib.Data.List.Infix
import Mathlib.Data.String.Basic

namespace LexLang.Bytecode

open List Option

/-! ## Shape ids -/

/-- Ids from the registry start here; a process never holds so many shapes that they reach
`noShapeId`. -/
def dynamicShapeIdBase : Nat := 0x80000000

/-- The id of a record without a shape. -/
def noShapeId : Nat := 0xFFFFFFFF

/-- **The registry of shapes**: the sorted lists of names, in the order they were interned. -/
abbrev ShapeRegistry := List (List String)

/-- Look up, or hand out, the id of a list of names. -/
def ShapeRegistry.intern (registry : ShapeRegistry) (fieldNames : List String) : Nat × ShapeRegistry :=
  let key := fieldNames.insertionSort (· ≤ ·)
  match registry.idxOf? key with
  | some i => (dynamicShapeIdBase + i, registry)
  | none => (dynamicShapeIdBase + registry.length, registry ++ [key])

/-! ## Records -/

/-- **The fields of a heap record**, in the order they were inserted. -/
structure Fields (V : Type) where
  entries : List (String × V)
  nodup : (entries.map Prod.fst).Nodup

namespace Fields

variable {V : Type} (fields : Fields V)

def keys : List String := fields.entries.map Prod.fst

def empty : Fields V := ⟨[], nodup_nil⟩

/-- Insert a field; one that is there keeps its place. -/
def insert (name : String) (value : V) : Fields V where
  entries :=
    if name ∈ fields.keys then
      fields.entries.map fun entry => if entry.1 = name then (name, value) else entry
    else fields.entries ++ [(name, value)]
  nodup := by
    split
    · have hkeys : (fields.entries.map fun entry => if entry.1 = name then (name, value) else entry).map
          Prod.fst = fields.keys := by
        rw [List.map_map]
        refine map_congr_left fun entry _ => ?_
        show (if entry.1 = name then (name, value) else entry).1 = entry.1
        split
        · rename_i h
          exact h.symm
        · rfl
      rw [hkeys]
      exact fields.nodup
    · rename_i hnew
      rw [map_append, map_singleton]
      exact nodup_append.mpr ⟨fields.nodup, nodup_singleton name, fun a ha b hb => by
        rw [mem_singleton.mp hb]
        rintro rfl
        exact hnew ha⟩

def ofPairs (pairs : List (String × V)) : Fields V :=
  pairs.foldl (fun fields pair => fields.insert pair.1 pair.2) empty

/-- The field at an offset. -/
def getIndex (off : Nat) : Option (String × V) := fields.entries[off]?

/-- A field by its name, with its offset. -/
def getFull (name : String) : Option (Nat × V) := do
  let off ← fields.entries.findIdx? fun entry => entry.1 == name
  let entry ← fields.entries[off]?
  some (off, entry.2)

end Fields

/-- **A record**: on the heap, or a handle to the cells of a slab. -/
inductive RecordValue (V : Type)
  | record (shapeId : Nat) (fields : Fields V)
  | stackRecord (shapeId slabStart fieldCount : Nat)
  | arenaRecord (shapeId slabStart fieldCount : Nat)

/-! ## Programs -/

/-- **What a program says about shapes and sites.** -/
structure Program where
  /-- The names of each record literal. -/
  recordShapes : List (List String)
  /-- Of each function, the names its sites read, in the order the compiler emits them. -/
  sites : List (List String)
  /-- The type checker refuses a literal with a name twice. -/
  distinct : ∀ shape ∈ recordShapes, shape.Nodup
  /-- Ids of the compiler stay below those of the registry. -/
  few : recordShapes.length ≤ dynamicShapeIdBase

namespace Program

variable (program : Program)

def siteName (fnId siteIdx : Nat) : Option String :=
  (program.sites[fnId]?).bind fun names => names[siteIdx]?

/-- How many slots a function has: the number of its sites, in 16 bits. -/
def fieldIcSites (fnId : Nat) : Nat := ((program.sites[fnId]?).getD []).length % 65536

/-- How many fields an allocation takes: the length of the shape, in 16 bits. -/
def fieldCount (shapeIdx : Nat) : Nat := ((program.recordShapes[shapeIdx]?).getD []).length % 65536

end Program

/-! ## The records of a run -/

/-- **The records that were built**, the registry, and the slabs. -/
structure Records (V : Type) where
  registry : ShapeRegistry
  stackRecordArena : List V
  arenaSlab : List V
  built : List (RecordValue V)

def Records.empty {V : Type} : Records V := ⟨[], [], [], []⟩

/-- A way to build a record, or what else a run does to the slabs. -/
inductive Build (V : Type)
  | makeRecord (shapeIdx : Nat) (values : List V)
  | allocStackRecord (shapeIdx : Nat) (values : List V)
  | allocArenaRecord (shapeIdx : Nat) (values : List V)
  | recordDynamic (fields : Fields V)
  /-- A record that carries no shape. -/
  | recordNoShape (fields : Fields V)
  | setStackSlab (cells : List V)
  | setArenaSlab (cells : List V)

section Build

variable {V : Type} (program : Program)

/-- Build a record. An instruction names a shape of its program. -/
def Records.build (records : Records V) : Build V → Records V
  | .makeRecord shapeIdx values =>
    match program.recordShapes[shapeIdx]? with
    | none => records
    | some shape =>
      let names := shape.take (program.fieldCount shapeIdx)
      { records with built := records.built ++ [.record shapeIdx (.ofPairs (names.zip values))] }
  | .allocStackRecord shapeIdx values =>
    { records with
      stackRecordArena := records.stackRecordArena ++ values
      built := records.built ++
        [.stackRecord shapeIdx records.stackRecordArena.length (program.fieldCount shapeIdx)] }
  | .allocArenaRecord shapeIdx values =>
    { records with
      arenaSlab := records.arenaSlab ++ values
      built := records.built ++
        [.arenaRecord shapeIdx records.arenaSlab.length (program.fieldCount shapeIdx)] }
  | .recordDynamic fields =>
    let (shapeId, registry) := records.registry.intern fields.keys
    { records with registry, built := records.built ++ [.record shapeId fields] }
  | .recordNoShape fields => { records with built := records.built ++ [.record noShapeId fields] }
  | .setStackSlab cells => { records with stackRecordArena := cells }
  | .setArenaSlab cells => { records with arenaSlab := cells }

end Build

/-! ## Reading a field -/

inductive VmError
  | typeMismatch (message : String)
  /-- An index that is out of bounds. -/
  | panic
  deriving DecidableEq

/-- What a slot holds: a shape id, and the offset of the field there. -/
abbrev IcEntry := Nat × Nat

/-- The instructions that read a field: alone, or fused with the load of a local and arithmetic. -/
inductive FieldOp
  | getField
  | loadLocalGetField
  | loadLocalGetFieldAdd
  | loadLocalGetFieldSub
  | loadLocalGetFieldMul
  deriving DecidableEq

section Read

variable {V : Type} (program : Program)

/-- The value a slot gives for a heap record. Records without a shape are checked by name. -/
def cachedField (cached : Option IcEntry) (name : String) (shapeId : Nat) (fields : Fields V) :
    Option V :=
  match cached with
  | none => none
  | some (cachedShape, off) =>
    if cachedShape = shapeId then
      if shapeId ≠ noShapeId then (fields.getIndex off).map Prod.snd
      else
        match fields.getIndex off with
        | some (k, value) => if name = k then some value else none
        | none => none
    else none

/-- Read a heap record: through the slot, else by name. Also what to put into the slot. -/
def readRecord (cached : Option IcEntry) (name : String) (shapeId : Nat) (fields : Fields V) :
    Except VmError (V × Option IcEntry) :=
  match cachedField cached name shapeId fields with
  | some value => .ok (value, none)
  | none =>
    match fields.getFull name with
    | some (off, value) => .ok (value, some (shapeId, off))
    | none => .error (.typeMismatch ("missing field `" ++ name ++ "`"))

/-- The offset of a field in a shape. -/
def resolveStackField (shapeId : Nat) (name on : String) : Except VmError Nat :=
  match program.recordShapes[shapeId]? with
  | none => .error .panic
  | some shape =>
    match shape.idxOf? name with
    | some off => .ok off
    | none => .error (.typeMismatch ("missing field `" ++ name ++ "` on " ++ on))

def readCell (slab : List V) (i : Nat) : Except VmError V :=
  match slab[i]? with
  | some value => .ok value
  | none => .error .panic

/-- Read a record in a slab: through the slot, else by its shape. -/
def readSlab (cached : Option IcEntry) (name on : String) (slab : List V)
    (shapeId slabStart fieldCount : Nat) : Except VmError (V × Option IcEntry) :=
  let resolve : Except VmError (V × Option IcEntry) := do
    let off ← resolveStackField program shapeId name on
    let value ← readCell slab (slabStart + off)
    .ok (value, some (shapeId, off))
  match cached with
  | none => resolve
  | some (cachedShape, off) =>
    if cachedShape = shapeId ∧ off % 65536 < fieldCount then do
      let value ← readCell slab (slabStart + off)
      .ok (value, none)
    else resolve

/-- Read with what a slot holds. A fused read takes an arena record for a stack record in its error. -/
def readField (records : Records V) (op : FieldOp) (cached : Option IcEntry) (name : String) :
    RecordValue V → Except VmError (V × Option IcEntry)
  | .record shapeId fields => readRecord cached name shapeId fields
  | .stackRecord shapeId slabStart fieldCount =>
    readSlab program cached name "stack record" records.stackRecordArena shapeId slabStart fieldCount
  | .arenaRecord shapeId slabStart fieldCount =>
    readSlab program cached name (if op = .getField then "arena record" else "stack record")
      records.arenaSlab shapeId slabStart fieldCount

/-- **Read by name**, without a slot. -/
def readUncached (records : Records V) (op : FieldOp) (name : String) (value : RecordValue V) :
    Except VmError V :=
  (readField program records op none name value).map Prod.fst

end Read

/-! ## The machine -/

/-- **The machine**: the records, and the slots of every function. -/
structure Vm (V : Type) where
  records : Records V
  fieldIcs : Nat → List (Option IcEntry)

def Vm.new {V : Type} : Vm V := ⟨.empty, fun _ => []⟩

/-- What a run does, as far as records go: it builds one, or reads a field of one at a site. -/
inductive Event (V : Type)
  | build (build : Build V)
  | read (op : FieldOp) (fnId siteIdx i : Nat)

section Run

variable {V : Type} (program : Program)

/-- The slots of a function, made when they are first needed. -/
def Vm.slots (vm : Vm V) (fnId : Nat) : List (Option IcEntry) :=
  if (vm.fieldIcs fnId).isEmpty then replicate (program.fieldIcSites fnId) none
  else vm.fieldIcs fnId

def Vm.setSlots (vm : Vm V) (fnId : Nat) (slots : List (Option IcEntry)) : Vm V :=
  { vm with fieldIcs := fun f => if f = fnId then slots else vm.fieldIcs f }

/-- Read a field at a site. -/
def Vm.read (vm : Vm V) (op : FieldOp) (fnId siteIdx : Nat) (name : String) (value : RecordValue V) :
    Except VmError V × Vm V :=
  let slots := vm.slots program fnId
  match slots[siteIdx]? with
  | none => (.error .panic, vm.setSlots fnId slots)
  | some cached =>
    match readField program vm.records op cached name value with
    | .error e => (.error e, vm.setSlots fnId slots)
    | .ok (field, none) => (.ok field, vm.setSlots fnId slots)
    | .ok (field, some entry) => (.ok field, vm.setSlots fnId (slots.set siteIdx (some entry)))

/-- The site and the record of a read, if the run has them. -/
def Records.operands (records : Records V) (fnId siteIdx i : Nat) : Option (String × RecordValue V) := do
  let name ← program.siteName fnId siteIdx
  let value ← records.built[i]?
  some (name, value)

/-- **One event**: the answer of a read, and the machine after it. -/
def Vm.step (vm : Vm V) : Event V → Option (Except VmError V) × Vm V
  | .build build => (none, { vm with records := vm.records.build program build })
  | .read op fnId siteIdx i =>
    match vm.records.operands program fnId siteIdx i with
    | none => (none, vm)
    | some (name, value) =>
      let (answer, vm) := vm.read program op fnId siteIdx name value
      (some answer, vm)

/-- **A run**: the answers, event by event. -/
def Vm.run (vm : Vm V) : List (Event V) → List (Option (Except VmError V))
  | [] => []
  | event :: events =>
    let (answer, vm) := vm.step program event
    answer :: vm.run events

/-- The same run on a machine that has no slots. -/
def Records.runPlain (records : Records V) : List (Event V) → List (Option (Except VmError V))
  | [] => []
  | .build build :: events => none :: Records.runPlain (records.build program build) events
  | .read op fnId siteIdx i :: events =>
    ((records.operands program fnId siteIdx i).map fun operands =>
      readUncached program records op operands.1 operands.2) :: Records.runPlain records events

/-- **What a read relies on**: if its slot holds the id of a heap record from the registry, the field of
this record is at the slot's offset. -/
def SlotMeets (cached : Option IcEntry) (name : String) : RecordValue V → Prop
  | .record shapeId fields =>
    ∀ off ∈ (cached.filter fun entry => entry.1 == shapeId).map Prod.snd,
      dynamicShapeIdBase ≤ shapeId → shapeId ≠ noShapeId → (fields.getFull name).map Prod.fst = some off
  | .stackRecord .. | .arenaRecord .. => True

instance (cached : Option IcEntry) (name : String) :
    (value : RecordValue V) → Decidable (SlotMeets cached name value)
  | .record shapeId fields =>
    inferInstanceAs (Decidable (∀ off ∈ (cached.filter fun entry => entry.1 == shapeId).map Prod.snd,
      dynamicShapeIdBase ≤ shapeId → shapeId ≠ noShapeId → (fields.getFull name).map Prod.fst = some off))
  | .stackRecord .. | .arenaRecord .. => isTrue trivial

/-- **When a read goes right.** The site has a slot, and the record meets it. -/
def Meets (vm : Vm V) : Event V → Prop
  | .build _ => True
  | .read _ fnId siteIdx i =>
    ∀ operands ∈ vm.records.operands program fnId siteIdx i,
      siteIdx < program.fieldIcSites fnId ∧
        SlotMeets ((vm.fieldIcs fnId)[siteIdx]?).join operands.1 operands.2

instance (vm : Vm V) : (event : Event V) → Decidable (Meets program vm event)
  | .build _ => isTrue trivial
  | .read _ fnId siteIdx i =>
    inferInstanceAs (Decidable (∀ operands ∈ vm.records.operands program fnId siteIdx i,
      siteIdx < program.fieldIcSites fnId ∧
        SlotMeets ((vm.fieldIcs fnId)[siteIdx]?).join operands.1 operands.2))

def AllMeet (vm : Vm V) : List (Event V) → Prop
  | [] => True
  | event :: events => Meets program vm event ∧ AllMeet (vm.step program event).2 events

instance decidableAllMeet (vm : Vm V) : (events : List (Event V)) → Decidable (AllMeet program vm events)
  | [] => isTrue trivial
  | event :: events =>
    have := decidableAllMeet (vm.step program event).2 events
    inferInstanceAs (Decidable (_ ∧ _))

end Run

/-! ## What a slot holds -/

variable {name : String} {shapeId : Nat} {shape : List String}

section Slots

variable {V : Type} {program : Program}

variable {off : Nat}

theorem idxOf?_of_nodup {names : List String} (hnodup : names.Nodup)
    (hoff : names[off]? = some name) : names.idxOf? name = some off := by
  obtain ⟨hlt, hname⟩ := List.getElem?_eq_some_iff.mp hoff
  refine idxOf?_eq_some_iff.mpr ⟨hlt, hname, fun j hj hsame => ?_⟩
  have : j = off := (hnodup.getElem_inj_iff).mp (hsame.trans hname.symm)
  omega

namespace Fields

variable {fields : Fields V}

theorem getFull_eq_some {value : V} :
    fields.getFull name = some (off, value) ↔ fields.entries[off]? = some (name, value) := by
  unfold getFull
  constructor
  · intro hfull
    obtain ⟨i, hi, hfull⟩ := bind_eq_some_iff.mp hfull
    obtain ⟨entry, hentry, hfull⟩ := bind_eq_some_iff.mp hfull
    obtain ⟨rfl, rfl⟩ : i = off ∧ entry.2 = value := by simpa using hfull
    obtain ⟨hlt, hname, -⟩ := findIdx?_eq_some_iff_getElem.mp hi
    have hat := (List.getElem?_eq_some_iff.mp hentry).2
    rw [hat] at hname
    rw [hentry, ← beq_iff_eq.mp hname]
  · intro hentry
    obtain ⟨hlt, hat⟩ := List.getElem?_eq_some_iff.mp hentry
    have hi : (fields.entries.findIdx? fun entry => entry.1 == name) = some off := by
      refine findIdx?_eq_some_iff_getElem.mpr ⟨hlt, by rw [hat]; exact beq_self_eq_true name, ?_⟩
      intro j hbefore hsame
      have hj : j < (fields.entries.map Prod.fst).length := by
        rw [length_map]
        omega
      have hoff : off < (fields.entries.map Prod.fst).length := by
        rw [length_map]
        omega
      have hkeys : (fields.entries.map Prod.fst)[j] = (fields.entries.map Prod.fst)[off] := by
        rw [getElem_map, getElem_map, hat]
        exact beq_iff_eq.mp hsame
      have : j = off := fields.nodup.getElem_inj_iff.mp hkeys
      omega
    rw [hi]
    simp [hentry]

/-- With the names of a shape, the field at an offset is the field of that name. -/
theorem getFull_of_prefix (hkeys : fields.keys <+: shape) {k : String} {value : V} (hoff : shape[off]? = some name)
    (hentry : fields.getIndex off = some (k, value)) : fields.getFull name = some (off, value) := by
  have hk : fields.keys[off]? = some k := by
    show (fields.entries.map Prod.fst)[off]? = some k
    rw [getElem?_map]
    exact congrArg (Option.map Prod.fst) hentry
  have hname : shape[off]? = some k := by
    obtain ⟨hlt, hat⟩ := List.getElem?_eq_some_iff.mp hk
    rw [← hat, IsPrefix.getElem hkeys hlt]
    exact getElem?_eq_getElem _
  obtain rfl : k = name := some.inj (hname.symm.trans hoff)
  exact getFull_eq_some.mpr hentry

/-- And a field of that name is at the offset of the name. -/
theorem idxOf?_of_getFull (hkeys : fields.keys <+: shape) (hnodup : shape.Nodup) {value : V}
    (hfull : fields.getFull name = some (off, value)) : shape.idxOf? name = some off := by
  have hentry := getFull_eq_some.mp hfull
  have hk : fields.keys[off]? = some name := by
    show (fields.entries.map Prod.fst)[off]? = some name
    rw [getElem?_map, hentry]
    rfl
  obtain ⟨hlt, hat⟩ := List.getElem?_eq_some_iff.mp hk
  apply idxOf?_of_nodup hnodup
  rw [← hat, IsPrefix.getElem hkeys hlt]
  exact getElem?_eq_getElem _

theorem keys_insert_of_not_mem (hnew : name ∉ fields.keys)
    (value : V) : (fields.insert name value).keys = fields.keys ++ [name] := by
  show (List.map Prod.fst (if _ then _ else _)) = _
  rw [if_neg hnew, map_append]
  rfl

theorem keys_ofPairs {pairs : List (String × V)} (hnodup : (pairs.map Prod.fst).Nodup) :
    (ofPairs pairs).keys = pairs.map Prod.fst := by
  suffices h : ∀ (fields : Fields V), (fields.keys ++ pairs.map Prod.fst).Nodup →
      (pairs.foldl (fun fields pair => fields.insert pair.1 pair.2) fields).keys =
        fields.keys ++ pairs.map Prod.fst from h empty hnodup
  clear hnodup
  induction pairs with
  | nil => intro fields _; simp
  | cons pair pairs ih =>
    intro fields hnodup
    have hnew : pair.1 ∉ fields.keys := by
      intro hmem
      exact (nodup_append.mp hnodup).2.2 _ hmem _ (mem_cons_self ..) rfl
    have hkeys := keys_insert_of_not_mem hnew pair.2
    rw [foldl_cons, ih]
    · rw [hkeys, append_assoc]
      rfl
    · rw [hkeys, append_assoc]
      exact hnodup

end Fields

/-- **A right entry for a name**: in a shape of the compiler, the offset is that of the name. -/
def EntryRight (program : Program) (name : String) (entry : IcEntry) : Prop :=
  ∀ shape, program.recordShapes[entry.1]? = some shape → shape.idxOf? name = some entry.2

/-- **A right record**: with the id of a shape it has the names of that shape, in their order, and a
handle with an id of no shape has no cells. -/
def RecordRight (program : Program) : RecordValue V → Prop
  | .record shapeId fields =>
    dynamicShapeIdBase ≤ shapeId ∨ ∃ shape, program.recordShapes[shapeId]? = some shape ∧ fields.keys <+: shape
  | .stackRecord shapeId _ fieldCount | .arenaRecord shapeId _ fieldCount =>
    program.recordShapes[shapeId]? = none → fieldCount = 0

theorem Program.not_dynamic
    (hshape : program.recordShapes[shapeId]? = some shape) : shapeId < dynamicShapeIdBase := by
  obtain ⟨hlt, -⟩ := List.getElem?_eq_some_iff.mp hshape
  have := program.few
  omega

theorem Program.entryRight_of_dynamic
    (hdyn : dynamicShapeIdBase ≤ shapeId) : EntryRight program name (shapeId, off) := by
  intro shape hshape
  have := program.not_dynamic hshape
  omega

end Slots

variable {entry : IcEntry}

section Reading

variable {V : Type} {program : Program} {records : Records V}

variable {cached : Option IcEntry}

variable (hentry : ∀ entry ∈ cached, EntryRight program name entry)
include hentry

/-- **A hit gives the field of the name.** -/
theorem getFull_of_cachedField {fields : Fields V} (hrecord : RecordRight program (.record shapeId fields))
    (hmeets : SlotMeets cached name (.record shapeId fields)) {value : V}
    (hhit : cachedField cached name shapeId fields = some value) :
    ∃ off, fields.getFull name = some (off, value) := by
  unfold cachedField at hhit
  match cached, hentry, hmeets, hhit with
  | some (cachedShape, off), hentry, hmeets, hhit =>
    simp only at hhit
    split at hhit
    · rename_i hsame
      subst hsame
      refine ⟨off, ?_⟩
      split at hhit
      · rename_i hshape
        obtain ⟨⟨k, v⟩, hindex, rfl⟩ := map_eq_some_iff.mp hhit
        rcases hrecord with hdyn | ⟨shape, hmem, hkeys⟩
        · -- an id of the registry: the offset is right by assumption
          have hoff : (fields.getFull name).map Prod.fst = some off :=
            hmeets off (by simp) hdyn hshape
          obtain ⟨⟨i, w⟩, hfull, rfl⟩ := map_eq_some_iff.mp hoff
          have hat : some (k, v) = some (name, w) :=
            hindex.symm.trans (Fields.getFull_eq_some.mp hfull)
          rw [hfull, (Prod.mk.inj (some.inj hat)).2]
        · have hoff := hentry _ rfl shape hmem
          obtain ⟨hlt, hat, -⟩ := idxOf?_eq_some_iff.mp hoff
          have hname : shape[off]? = some name := List.getElem?_eq_some_iff.mpr ⟨hlt, hat⟩
          exact Fields.getFull_of_prefix hkeys hname hindex
      · -- without a shape the name was compared
        split at hhit
        · rename_i k v hindex
          split at hhit
          · rename_i hname
            obtain rfl := some.inj hhit
            rw [hname]
            exact Fields.getFull_eq_some.mpr hindex
          · exact absurd hhit (by simp)
        · exact absurd hhit (by simp)
    · exact absurd hhit (by simp)

/-- **A read of a heap record answers as a read by name.** -/
theorem readRecord_right {fields : Fields V} (hrecord : RecordRight program (.record shapeId fields))
    (hmeets : SlotMeets cached name (.record shapeId fields)) : (readRecord cached name shapeId fields).map Prod.fst =
      (readRecord none name shapeId fields).map Prod.fst := by
  match hhit : cachedField cached name shapeId fields with
  | none =>
    have hplain : cachedField none name shapeId fields = none := rfl
    unfold readRecord
    rw [hhit, hplain]
  | some value =>
    obtain ⟨off, hfull⟩ := getFull_of_cachedField hentry hrecord hmeets hhit
    have hplain : cachedField none name shapeId fields = none := rfl
    unfold readRecord
    rw [hhit, hfull]
    rfl

omit hentry in
/-- What a read of a heap record puts into its slot is right. -/
theorem readRecord_entry {fields : Fields V} (hrecord : RecordRight program (.record shapeId fields)) {value : V}
    (hread : readRecord cached name shapeId fields = .ok (value, some entry)) : EntryRight program name entry := by
  unfold readRecord at hread
  split at hread
  · exact absurd hread (by simp)
  · split at hread
    · rename_i off v hfull
      obtain ⟨-, rfl⟩ : v = value ∧ (shapeId, off) = entry := by simpa using hread
      rcases hrecord with hdyn | ⟨shape, hmem, hkeys⟩
      · exact program.entryRight_of_dynamic hdyn
      · intro shape' hmem'
        obtain rfl : shape = shape' := some.inj (hmem.symm.trans hmem')
        exact Fields.idxOf?_of_getFull hkeys (program.distinct _ (mem_of_getElem? hmem)) hfull
    · exact absurd hread (by simp)

/-- **A read through a handle answers as a read by name.** -/
theorem readSlab_right {on : String} {slab : List V} {slabStart fieldCount : Nat}
    (hcells : program.recordShapes[shapeId]? = none → fieldCount = 0) :
    (readSlab program cached name on slab shapeId slabStart fieldCount).map Prod.fst =
      (readSlab program none name on slab shapeId slabStart fieldCount).map Prod.fst := by
  match cached, hentry with
  | none, _ => rfl
  | some (cachedShape, off), hentry =>
    unfold readSlab
    simp only
    split
    · rename_i hhit
      obtain ⟨rfl, hlt⟩ := hhit
      match hshape : program.recordShapes[cachedShape]? with
      | none =>
        have := hcells hshape
        omega
      | some shape =>
        have hoff : resolveStackField program cachedShape name on = .ok off := by
          unfold resolveStackField
          rw [hshape]
          simp only
          rw [hentry _ rfl shape hshape]
        rw [hoff]
        show Except.map _ (readCell slab (slabStart + off) >>= _) =
          Except.map _ (readCell slab (slabStart + off) >>= _)
        cases readCell slab (slabStart + off) <;> rfl
    · rfl

omit hentry

/-- What a read through a handle puts into its slot is right. -/
theorem readSlab_entry {on : String} {slab : List V} {slabStart fieldCount : Nat} {value : V}
    (hread : readSlab program cached name on slab shapeId slabStart fieldCount = .ok (value, some entry)) :
    EntryRight program name entry := by
  have hresolve : ∀ {off : Nat}, resolveStackField program shapeId name on = .ok off →
      EntryRight program name (shapeId, off) := by
    intro off hoff shape hshape
    unfold resolveStackField at hoff
    rw [hshape] at hoff
    simp only at hoff
    split at hoff
    · rename_i i hi
      obtain rfl : i = off := by simpa using hoff
      exact hi
    · exact absurd hoff (by simp)
  have hmiss : (do
      let off ← resolveStackField program shapeId name on
      let value ← readCell slab (slabStart + off)
      .ok (value, some (shapeId, off)) : Except VmError (V × Option IcEntry)) = .ok (value, some entry) →
      EntryRight program name entry := by
    intro hmiss
    match hoff : resolveStackField program shapeId name on with
    | .error e =>
      rw [hoff] at hmiss
      exact absurd hmiss (by simp [bind, Except.bind])
    | .ok off =>
      rw [hoff] at hmiss
      match hcell : readCell slab (slabStart + off) with
      | .error e => simp [bind, Except.bind, hcell] at hmiss
      | .ok v =>
        simp only [bind, Except.bind, hcell, Except.ok.injEq, Prod.mk.injEq, some.injEq] at hmiss
        rw [← hmiss.2]
        exact hresolve hoff
  unfold readSlab at hread
  split at hread
  · exact hmiss hread
  · rename_i off
    split at hread
    · match hcell : readCell slab (slabStart + off) with
      | .error e => rw [hcell] at hread; exact absurd hread (by simp [bind, Except.bind])
      | .ok v => rw [hcell] at hread; exact absurd hread (by simp [bind, Except.bind])
    · exact hmiss hread

theorem readField_right (records : Records V) (op : FieldOp)
    {value : RecordValue V} (hentry : ∀ entry ∈ cached, EntryRight program name entry) (hrecord : RecordRight program value)
    (hmeets : SlotMeets cached name value) : (readField program records op cached name value).map Prod.fst =
      readUncached program records op name value := by
  match value, hrecord, hmeets with
  | .record shapeId fields, hrecord, hmeets => exact readRecord_right hentry hrecord hmeets
  | .stackRecord shapeId slabStart fieldCount, hrecord, _ => exact readSlab_right hentry hrecord
  | .arenaRecord shapeId slabStart fieldCount, hrecord, _ => exact readSlab_right hentry hrecord

theorem readField_entry {op : FieldOp} {value : RecordValue V} (hrecord : RecordRight program value) {field : V}
    (hread : readField program records op cached name value = .ok (field, some entry)) :
    EntryRight program name entry := by
  match value, hrecord, hread with
  | .record shapeId fields, hrecord, hread => exact readRecord_entry hrecord hread
  | .stackRecord shapeId slabStart fieldCount, _, hread => exact readSlab_entry hread
  | .arenaRecord shapeId slabStart fieldCount, _, hread => exact readSlab_entry hread

end Reading

section Running

variable {V : Type} {program : Program}

/-- **A right machine.** The slots of a function are as many as its sites, or not made yet, and hold
right entries; the records are right. -/
structure VmRight (program : Program) (vm : Vm V) : Prop where
  slots : ∀ fnId, vm.fieldIcs fnId = [] ∨ (vm.fieldIcs fnId).length = program.fieldIcSites fnId
  entries : ∀ fnId siteIdx entry, (vm.fieldIcs fnId)[siteIdx]? = some (some entry) →
    ∀ name, program.siteName fnId siteIdx = some name → EntryRight program name entry
  records : ∀ value ∈ vm.records.built, RecordRight program value

theorem vmRight_new : VmRight program (Vm.new : Vm V) where
  slots _ := .inl rfl
  entries _ _ _ h := absurd h (by simp [Vm.new])
  records _ h := absurd h (by simp [Vm.new, Records.empty])

theorem map_fst_zip_isShort (names : List String) (values : List V) : (names.zip values).map Prod.fst <+: names := by
  induction names generalizing values with
  | nil => exact nil_prefix
  | cons name names ih =>
    match values with
    | [] => exact nil_prefix
    | value :: values => exact (cons_prefix_cons).mpr ⟨rfl, ih values⟩

theorem keys_makeRecord {shapeIdx : Nat}
    (hshape : program.recordShapes[shapeIdx]? = some shape) (n : Nat) (values : List V) :
    (Fields.ofPairs ((shape.take n).zip values)).keys <+: shape := by
  have hnodup := program.distinct _ (mem_of_getElem? hshape)
  have hshort : ((shape.take n).zip values).map Prod.fst <+: shape :=
    (map_fst_zip_isShort _ values).trans <| take_prefix n shape
  rw [Fields.keys_ofPairs (hshort.sublist.nodup hnodup)]
  exact hshort

theorem ShapeRegistry.le_intern (registry : ShapeRegistry) (fieldNames : List String) :
    dynamicShapeIdBase ≤ (registry.intern fieldNames).1 := by
  unfold ShapeRegistry.intern
  simp only
  split <;> exact Nat.le_add_right _ _

theorem Program.fieldCount_eq_zero {shapeIdx : Nat} (hshape : program.recordShapes[shapeIdx]? = none) :
    program.fieldCount shapeIdx = 0 := by
  show ((program.recordShapes[shapeIdx]?).getD []).length % 65536 = 0
  rw [hshape]
  rfl

/-- **Every way to build a record builds a right one.** -/
theorem build_right {records : Records V} (hright : ∀ value ∈ records.built, RecordRight program value)
    (build : Build V) : ∀ value ∈ (records.build program build).built, RecordRight program value := by
  have happend : ∀ {new : RecordValue V}, RecordRight program new →
      ∀ value ∈ records.built ++ [new], RecordRight program value := by
    intro new hnew value hvalue
    rcases mem_append.mp hvalue with hold | hone
    · exact hright value hold
    · rw [mem_singleton.mp hone]
      exact hnew
  match build with
  | .makeRecord shapeIdx values =>
    match hshape : program.recordShapes[shapeIdx]? with
    | none => simpa only [Records.build, hshape] using hright
    | some shape =>
      have hnew : RecordRight program (.record shapeIdx
          (.ofPairs ((shape.take (program.fieldCount shapeIdx)).zip values))) :=
        .inr ⟨shape, hshape, keys_makeRecord hshape _ values⟩
      simpa only [Records.build, hshape] using happend hnew
  | .allocStackRecord shapeIdx values => exact happend program.fieldCount_eq_zero
  | .allocArenaRecord shapeIdx values => exact happend program.fieldCount_eq_zero
  | .recordDynamic fields => exact happend (.inl (records.registry.le_intern fields.keys))
  | .recordNoShape fields => exact happend (.inl (by decide))
  | .setStackSlab cells => exact hright
  | .setArenaSlab cells => exact hright

theorem VmRight.setSlots {vm : Vm V} (hright : VmRight program vm) {fnId : Nat}
    {slots : List (Option IcEntry)} (hlength : slots.length = program.fieldIcSites fnId)
    (hslots : ∀ siteIdx entry, slots[siteIdx]? = some (some entry) →
      ∀ name, program.siteName fnId siteIdx = some name → EntryRight program name entry) :
    VmRight program (vm.setSlots fnId slots) where
  slots f := by
    show (if f = fnId then slots else vm.fieldIcs f) = [] ∨ _
    split
    · rename_i hf
      rw [hf]
      exact .inr (by rw [← hlength]; simp [Vm.setSlots])
    · rename_i hf
      have := hright.slots f
      simpa [Vm.setSlots, hf] using this
  entries f siteIdx entry h name hname := by
    change (if f = fnId then slots else vm.fieldIcs f)[siteIdx]? = _ at h
    split at h
    · rename_i hf
      subst hf
      exact hslots siteIdx entry h name hname
    · exact hright.entries f siteIdx entry h name hname
  records := hright.records

theorem VmRight.length_slots {vm : Vm V} (hright : VmRight program vm) (fnId : Nat) :
    (vm.slots program fnId).length = program.fieldIcSites fnId := by
  unfold Vm.slots
  split
  · exact length_replicate
  · rename_i hnew
    rcases hright.slots fnId with hnil | hlength
    · exact absurd (by rw [hnil]; rfl) hnew
    · exact hlength

/-- Slots that were just made are empty. -/
theorem Vm.slots_some {vm : Vm V} {fnId siteIdx : Nat} (h : (vm.slots program fnId)[siteIdx]? = some (some entry)) :
    (vm.fieldIcs fnId)[siteIdx]? = some (some entry) := by
  unfold Vm.slots at h
  split at h
  · have := mem_of_getElem? h
    exact absurd (eq_of_mem_replicate this) (by simp)
  · exact h

theorem slotMeets_none {value : RecordValue V} : SlotMeets none name value := by
  match value with
  | .record shapeId fields => exact fun off hoff => absurd hoff (by simp)
  | .stackRecord .. => trivial
  | .arenaRecord .. => trivial

/-- **One read**: it answers as a read by name, and leaves the machine right. -/
theorem read_right {vm : Vm V} (hright : VmRight program vm) (op : FieldOp) {fnId siteIdx : Nat}
    {value : RecordValue V} (hname : program.siteName fnId siteIdx = some name)
    (hvalue : RecordRight program value) (hsite : siteIdx < program.fieldIcSites fnId)
    (hmeets : SlotMeets ((vm.fieldIcs fnId)[siteIdx]?).join name value) :
    (vm.read program op fnId siteIdx name value).1 = readUncached program vm.records op name value ∧
      VmRight program (vm.read program op fnId siteIdx name value).2 ∧
      (vm.read program op fnId siteIdx name value).2.records = vm.records := by
  have hlength := hright.length_slots fnId
  have hentries : ∀ i entry, (vm.slots program fnId)[i]? = some (some entry) →
      ∀ name, program.siteName fnId i = some name → EntryRight program name entry :=
    fun i entry h name hname => hright.entries fnId i entry (Vm.slots_some h) name hname
  have hmade : VmRight program (vm.setSlots fnId (vm.slots program fnId)) :=
    hright.setSlots hlength hentries
  obtain ⟨cached, hcached⟩ : ∃ cached, (vm.slots program fnId)[siteIdx]? = some cached :=
    ⟨_, getElem?_eq_getElem (by omega)⟩
  have hentry : ∀ entry ∈ cached, EntryRight program name entry := by
    rintro entry rfl
    exact hentries siteIdx entry hcached name hname
  have hslot : SlotMeets cached name value := by
    match cached, hcached with
    | none, _ => exact slotMeets_none
    | some entry, hcached =>
      rw [Vm.slots_some hcached] at hmeets
      exact hmeets
  have hanswer := readField_right vm.records op hentry hvalue hslot
  unfold Vm.read
  simp only [hcached]
  rw [← hanswer]
  split
  · rename_i e hread
    exact ⟨by rw [hread]; rfl, hmade, rfl⟩
  · rename_i field hread
    exact ⟨by rw [hread]; rfl, hmade, rfl⟩
  · rename_i field entry hread
    refine ⟨by rw [hread]; rfl, hright.setSlots (by rw [length_set]; exact hlength) ?_, rfl⟩
    intro i e h other hother
    rw [getElem?_set] at h
    split at h
    · rename_i hi
      subst hi
      rw [hname] at hother
      obtain rfl := some.inj hother
      have he : entry = e := by
        split at h
        · exact some.inj (some.inj h)
        · exact absurd h (by simp)
      rw [← he]
      exact readField_entry hvalue hread
    · exact hentries i e h other hother

/-- **Reads through inline caches are reads by name**, in every run in which the records of the registry
have their fields where the slots say. -/
theorem run_eq_runPlain (program : Program) (events : List (Event V)) :
    AllMeet program Vm.new events → Vm.new.run program events = Records.empty.runPlain program events := by
  suffices h : ∀ vm : Vm V, VmRight program vm → AllMeet program vm events →
      vm.run program events = vm.records.runPlain program events from h Vm.new vmRight_new
  induction events with
  | nil => exact fun _ _ _ => rfl
  | cons event events ih =>
    intro vm hright hmeet
    obtain ⟨hmeets, hrest⟩ := hmeet
    match event, hmeets, hrest with
    | .build build, _, hrest =>
      have hbuilt : VmRight program { vm with records := vm.records.build program build } :=
        ⟨hright.slots, hright.entries, build_right hright.records build⟩
      exact congrArg (none :: ·) (ih _ hbuilt hrest)
    | .read op fnId siteIdx i, hmeets, hrest =>
      match hoperands : vm.records.operands program fnId siteIdx i with
      | none =>
        have hstep : vm.step program (.read op fnId siteIdx i) = (none, vm) := by
          unfold Vm.step
          simp only [hoperands]
        unfold Vm.run Records.runPlain
        rw [hstep, hoperands]
        rw [hstep] at hrest
        exact congrArg (none :: ·) (ih vm hright hrest)
      | some (name, value) =>
        obtain ⟨hname, hvalue⟩ : program.siteName fnId siteIdx = some name ∧ value ∈ vm.records.built := by
          obtain ⟨n, hn, hoperands⟩ := bind_eq_some_iff.mp hoperands
          obtain ⟨v, hv, hoperands⟩ := bind_eq_some_iff.mp hoperands
          obtain ⟨rfl, rfl⟩ : n = name ∧ v = value := by simpa using hoperands
          exact ⟨hn, mem_of_getElem? hv⟩
        obtain ⟨hsite, hslot⟩ := hmeets (name, value) hoperands
        obtain ⟨hanswer, hafter, hrecords⟩ :=
          read_right hright op hname (hright.records value hvalue) hsite hslot
        have hstep : vm.step program (.read op fnId siteIdx i) =
            (some (vm.read program op fnId siteIdx name value).1,
              (vm.read program op fnId siteIdx name value).2) := by
          unfold Vm.step
          simp only [hoperands]
        unfold Vm.run Records.runPlain
        rw [hstep, hoperands]
        rw [hstep] at hrest
        have hrun := ih _ hafter hrest
        rw [hrecords] at hrun
        show some (vm.read program op fnId siteIdx name value).1 ::
          (vm.read program op fnId siteIdx name value).2.run program events = _
        rw [hrun, hanswer]
        rfl

/-- One literal, and two records of the registry that read alike at one site. -/
theorem run_eq_runPlain_sameOrder :
    let program : Program := ⟨[["a", "b"]], [["b", "a"]], by decide, by decide⟩
    let events : List (Event Nat) :=
      [.build (.makeRecord 0 [1, 2]), .build (.allocStackRecord 0 [3, 4]),
        .build (.recordDynamic ⟨[("b", 5), ("a", 6)], by decide⟩),
        .build (.recordDynamic ⟨[("b", 7), ("a", 8)], by decide⟩),
        .read .getField 0 0 0, .read .getField 0 0 1, .read .getField 0 0 2, .read .loadLocalGetField 0 0 3]
    Vm.new.run program events = Records.empty.runPlain program events :=
  run_eq_runPlain _ _ (by decide +kernel)

/-- **A record of the registry with its fields in another order**: both records come with one shape id,
and where the slot has the offset of `a` in the first, the second has `b`. -/
theorem reordered_read : ¬ ∀ (program : Program) (events : List (Event Nat)),
      Vm.new.run program events = Records.empty.runPlain program events := by
  intro hplain
  let program : Program := ⟨[], [["a"]], by decide, by decide⟩
  let events : List (Event Nat) :=
    [.build (.recordDynamic ⟨[("a", 1), ("b", 2)], by decide⟩),
      .build (.recordDynamic ⟨[("b", 3), ("a", 4)], by decide⟩),
      .read .getField 0 0 0, .read .getField 0 0 1]
  have hruns : (Vm.new.run program events)[3]? ≠ (Records.empty.runPlain program events)[3]? := by
    decide +kernel
  exact hruns (congrArg (·[3]?) (hplain program events))

end Running

end LexLang.Bytecode
