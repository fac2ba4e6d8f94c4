/-
# LexLang.Machine.Value — the values of a running program

`Value` (`lex-bytecode/src/value.rs`) and the constants of a program. An `i64` is an `Int64`, whose operations
wrap; a float is a `Float`. What the machine looks into is data here; a matrix, a map, a set, a deque, a
ticker or a table is a reference to what the host keeps.

The host panics where an accessor meets the wrong kind of value. Such a result is `none`.
-/
import LexLang.Ast.Canonical

namespace LexLang.Machine

/-- The hash of a function's code, which closures are compared by. -/
abbrev BodyHash := Nat

inductive Value
  | int (n : Int64)
  | float (x : Float)
  | bool (b : Bool)
  | str (s : String)
  | bytes (data : List UInt8)
  | unit
  | list (items : List Value)
  | tuple (items : List Value)
  -- the fields in the order they were inserted
  | record (shapeId : Nat) (fields : List (String × Value))
  -- handles into the two slabs
  | stackRecord (shapeId slabStart fieldCount : Nat)
  | stackTuple (slabStart arity : Nat)
  | arenaRecord (shapeId slabStart fieldCount : Nat)
  | arenaTuple (slabStart arity : Nat)
  | variant (name : String) (args : List Value)
  | closure (fnId : Nat) (bodyHash : BodyHash) (captures : List Value)
  | actor (cell : Nat)
  | askHandle (slot : Nat)
  | host (object : Nat)
  deriving Inhabited

namespace Value

/-! ## Accessors -/

def asInt? : Value → Option Int64
  | int n => some n
  | _ => none

def asFloat? : Value → Option Float
  | float x => some x
  | _ => none

def asBool? : Value → Option Bool
  | bool b => some b
  | _ => none

def asStr? : Value → Option String
  | str s => some s
  | _ => none

/-- Whether `==` panics on it, whatever the other side is. -/
def isHandle : Value → Bool
  | stackRecord .. | stackTuple .. | arenaRecord .. | arenaTuple .. => true
  | _ => false

/-! ## Equality

Closures are equal when their code has one hash and what they captured is equal; a record's shape does not
count, nor the order of its fields. -/

mutual

/-- `==`; `none` where a handle into a slab is compared. -/
def eq : Value → Value → Option Bool
  | int a, int b => some (a == b)
  | float a, float b => some (a == b)
  | bool a, bool b => some (a == b)
  | str a, str b => some (a == b)
  | bytes a, bytes b => some (a == b)
  | unit, unit => some true
  | list a, list b => if a.length = b.length then eqItems a b else some false
  | tuple a, tuple b => if a.length = b.length then eqItems a b else some false
  | record _ a, record _ b => if a.length = b.length then eqFields a b else some false
  | variant n a, variant m b =>
    if n = m ∧ a.length = b.length then eqItems a b else some false
  | closure _ h a, closure _ k b =>
    if h = k ∧ a.length = b.length then eqItems a b else some false
  | actor a, actor b => some (a == b)
  | askHandle a, askHandle b => some (a == b)
  | host a, host b => some (a == b)
  | a, b => if a.isHandle || b.isHandle then none else some false

/-- Stops at the first difference. -/
def eqItems : List Value → List Value → Option Bool
  | a :: as, b :: bs => do if ← a.eq b then eqItems as bs else some false
  | _, _ => some true

/-- Every field of the first has its equal in the second. -/
def eqFields : List (String × Value) → List (String × Value) → Option Bool
  | [], _ => some true
  | (name, a) :: as, bs =>
    match bs.lookup name with
    | none => some false
    | some b => do if ← a.eq b then eqFields as bs else some false

end

/-! ## Handles inside of a value -/

mutual

/-- `contains_arena_record`. -/
def containsArenaRecord : Value → Bool
  | arenaRecord .. | arenaTuple .. => true
  | list items | tuple items | variant _ items | closure _ _ items => anyArenaRecord items
  | record _ fields => anyFieldArenaRecord fields
  | _ => false

def anyArenaRecord : List Value → Bool
  | [] => false
  | item :: items => item.containsArenaRecord || anyArenaRecord items

def anyFieldArenaRecord : List (String × Value) → Bool
  | [] => false
  | (_, field) :: fields => field.containsArenaRecord || anyFieldArenaRecord fields

end

end Value

/-! ## Constants -/

inductive Const
  | int (n : Int64)
  | float (x : Float)
  | bool (b : Bool)
  | str (s : String)
  | bytes (data : List UInt8)
  | unit
  | fieldName (s : String)
  | variantName (s : String)
  | nodeId (s : String)
  deriving Inhabited

/-- `const_to_value`. -/
def Const.toValue : Const → Value
  | .int n => .int n
  | .float x => .float x
  | .bool b => .bool b
  | .str s => .str s
  | .bytes data => .bytes data
  | .unit => .unit
  | .fieldName s | .variantName s | .nodeId s => .str s

end LexLang.Machine
