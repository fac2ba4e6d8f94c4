/-
# LexLang.Trace.ValueJson — values in a trace

`value_to_json` and `json_to_value` (`lex-trace/src/recorder.rs`). A map keeps its keys in order; a record that
is read back has its fields in that order.

What the host keeps of a map, a set, a deque, a matrix, a ticker or a table is read through `Shown.hostJson`.
-/
import LexLang.Ast.Canonicalize
import LexLang.Json.Value
import LexLang.Machine.Refinement

namespace LexLang.Trace

open LexLang.Machine (Value Host BodyHash)

/-- What is shown of what lies outside of a value. -/
structure Shown where
  hostJson : Nat → Json.Value
  /-- The first eight hex digits of the hash of a closure's code. -/
  hashHead : BodyHash → String

/-! ## Writing -/

/-- `From<f64>`: a float that is not finite is null. -/
def jsonFloat (x : Float) : Json.Value :=
  let bits := x.toBits.toBitVec
  if h : (bits >>> 52) &&& 0x7ff#64 ≠ 0x7ff#64 then .number (.float ⟨bits, h⟩) else .null

section Write

variable (shown : Shown)

mutual

def value_to_json : Value → Json.Value
  | .int n => .number (.int n.toInt)
  | .float x => jsonFloat x
  | .bool b => .bool b
  | .str s => .string s
  | .bytes data => .string (Ast.hex data)
  | .unit => .null
  | .list items => .array (itemsToJson items)
  | .tuple items => .array (itemsToJson items)
  | .record _ fields => .object (fieldsToJson fields)
  | .stackRecord .. => .string "<stack-record-unreachable>"
  | .stackTuple .. => .string "<stack-tuple-unreachable>"
  | .arenaRecord .. => .string "<arena-record-unreachable>"
  | .arenaTuple .. => .string "<arena-tuple-unreachable>"
  | .variant name args => .object [("$variant", .string name), ("args", .array (itemsToJson args))]
  | .closure _ bodyHash _ => .string ("<closure " ++ shown.hashHead bodyHash ++ ">")
  | .actor _ => .string "<actor>"
  | .askHandle _ => .string "<ask_handle>"
  | .host object => shown.hostJson object

def itemsToJson : List Value → List Json.Value
  | [] => []
  | v :: vs => value_to_json v :: itemsToJson vs

def fieldsToJson : List (String × Value) → List (String × Json.Value)
  | [] => []
  | (name, v) :: fields => (name, value_to_json v) :: fieldsToJson fields

end

attribute [local simp] value_to_json itemsToJson fieldsToJson

def values_to_json (args : List Value) : Json.Value := .array (itemsToJson shown args)

end Write

/-! ## Reading -/

section Read

variable (host : Host)

/-- An integer that is none of 64 bits is read as a float. -/
def intOfJson (n : Int) : Value :=
  if n = (Int64.ofInt n).toInt then .int (Int64.ofInt n) else .float (Float.ofInt n)

mutual

def json_to_value : Json.Value → Value
  | .null => .unit
  | .bool b => .bool b
  | .number (.int n) => intOfJson n
  | .number (.float x) => .float (Float.ofBits ⟨x.bits⟩)
  | .string s => .str s
  | .array items => .list (itemsOfJson items)
  | .object map =>
    match Json.Value.get map "$variant", argsOfJson map with
    | some (.string name), some args => .variant name args
    | _, _ =>
      let fields := (fieldsOfJson map).mergeSort Json.keyLe
      .record (host.dynamicShape (fields.map Prod.fst)) fields

def itemsOfJson : List Json.Value → List Value
  | [] => []
  | v :: vs => json_to_value v :: itemsOfJson vs

def fieldsOfJson : List (String × Json.Value) → List (String × Value)
  | [] => []
  | (name, v) :: fields => (name, json_to_value v) :: fieldsOfJson fields

/-- The array under `args`. -/
def argsOfJson : List (String × Json.Value) → Option (List Value)
  | [] => none
  | (name, v) :: fields =>
    if name = "args" then
      match v with
      | .array items => some (itemsOfJson items)
      | _ => none
    else argsOfJson fields

end

attribute [local simp] json_to_value itemsOfJson fieldsOfJson argsOfJson

end Read

end LexLang.Trace
