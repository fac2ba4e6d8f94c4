/-
# LexLang.Json.Value — JSON values, and when two are equal

Values as `serde_json` has them: integers apart from finite floats, and maps with distinct keys, in
the order of their keys. Here a map may list its keys in any order; `sortKeys` puts them in order, and
equality (`same`) is of what is then there. A float is equal to another of the same value, so a zero is
equal to a negative zero (`FiniteFloat.eq`).
-/
import Mathlib.Data.BitVec
import Mathlib.Data.String.Basic

namespace LexLang.Json

open List

/-! ## Numbers -/

/-- **A finite 64-bit float**: its bits, whose exponent is not all ones. -/
structure FiniteFloat where
  bits : BitVec 64
  finite : (bits >>> 52) &&& 0x7ff#64 ≠ 0x7ff#64
  deriving DecidableEq

namespace FiniteFloat

def zero : FiniteFloat := ⟨0#64, by decide⟩

def negZero : FiniteFloat := ⟨0x8000000000000000#64, by decide⟩

/-- A zero, of either sign. -/
def isZero (f : FiniteFloat) : Bool := f == zero || f == negZero

/-- Equal floats: the same bits, or two zeros. -/
def eq (f g : FiniteFloat) : Bool := f == g || (f.isZero && g.isZero)

@[simp] theorem eq_self (f : FiniteFloat) : f.eq f = true := by simp [eq]

end FiniteFloat

/-- An integer is not a float, also where the two have one value. -/
inductive Number
  | int (value : Int)
  | float (value : FiniteFloat)
  deriving DecidableEq

def Number.eq : Number → Number → Bool
  | .int a, .int b => a == b
  | .float f, .float g => f.eq g
  | _, _ => false

@[simp] theorem Number.eq_self (n : Number) : n.eq n = true := by
  cases n <;> simp [Number.eq]

/-! ## Values -/

/-- **A JSON value.** The keys of a map are distinct; nothing here needs it. -/
inductive Value
  | null
  | bool (value : Bool)
  | number (n : Number)
  | string (s : String)
  | array (items : List Value)
  | object (map : List (String × Value))

/-- One key is not after another. -/
def keyLe {α : Type} (a b : String × α) : Bool := decide (a.1 ≤ b.1)

namespace Value

mutual

/-- Put the keys of every map in order. -/
def sortKeys : Value → Value
  | .array items => .array (sortKeysAll items)
  | .object map => .object ((sortKeysFields map).mergeSort keyLe)
  | .null => .null
  | .bool value => .bool value
  | .number n => .number n
  | .string s => .string s

def sortKeysAll : List Value → List Value
  | [] => []
  | v :: vs => sortKeys v :: sortKeysAll vs

def sortKeysFields : List (String × Value) → List (String × Value)
  | [] => []
  | (key, v) :: map => (key, sortKeys v) :: sortKeysFields map

end

mutual

/-- Values equal place by place. -/
def eq : Value → Value → Bool
  | .null, .null => true
  | .bool a, .bool b => a == b
  | .number m, .number n => m.eq n
  | .string s, .string t => s == t
  | .array vs, .array ws => eqAll vs ws
  | .object map, .object map' => eqFields map map'
  | _, _ => false

def eqAll : List Value → List Value → Bool
  | [], [] => true
  | v :: vs, w :: ws => eq v w && eqAll vs ws
  | _, _ => false

def eqFields : List (String × Value) → List (String × Value) → Bool
  | [], [] => true
  | (key, v) :: map, (key', w) :: map' => key == key' && eq v w && eqFields map map'
  | _, _ => false

end

/-- **Equal values**: in whatever order their keys are listed. -/
def same (v w : Value) : Bool := v.sortKeys.eq w.sortKeys

/-- Equal values, a zero and a negative zero told apart. -/
def Identical (v w : Value) : Prop := v.sortKeys = w.sortKeys

mutual

theorem eq_self : ∀ v : Value, v.eq v = true
  | .null => rfl
  | .bool value => by simp [eq]
  | .number n => by simp [eq]
  | .string s => by simp [eq]
  | .array items => by simp [eq, eqAll_self items]
  | .object map => by simp [eq, eqFields_self map]

theorem eqAll_self : ∀ vs : List Value, eqAll vs vs = true
  | [] => rfl
  | v :: vs => by simp [eqAll, eq_self v, eqAll_self vs]

theorem eqFields_self : ∀ map : List (String × Value), eqFields map map = true
  | [] => rfl
  | (key, v) :: map => by simp [eqFields, eq_self v, eqFields_self map]

end

theorem Identical.same {v w : Value} (h : v.Identical w) : v.same w = true := by
  unfold Value.same
  rw [h]
  exact eq_self w.sortKeys

theorem sortKeysAll_eq_map (vs : List Value) : sortKeysAll vs = vs.map sortKeys := by
  induction vs with
  | nil => rfl
  | cons v vs ih => rw [sortKeysAll, ih, map_cons]

theorem sortKeysFields_eq_map (map : List (String × Value)) :
    sortKeysFields map = map.map fun field => (field.1, field.2.sortKeys) := by
  induction map with
  | nil => rfl
  | cons field map ih => rw [sortKeysFields, ih, map_cons]

/-- The value under a key. -/
def get (map : List (String × Value)) (key : String) : Option Value := map.lookup key

end Value

/-! ## Sorting by key -/

section Keys

variable {α β : Type}

theorem keyLe_trans (a b c : String × α) (hab : keyLe a b = true) (hbc : keyLe b c = true) : keyLe a c = true := by
  simp only [keyLe, decide_eq_true_eq] at *
  exact le_trans hab hbc

theorem keyLe_total (a b : String × α) : (keyLe a b || keyLe b a) = true := by
  simp only [keyLe, Bool.or_eq_true, decide_eq_true_eq]
  exact le_total a.1 b.1

theorem mergeSort_map (f : α → β) (map : List (String × α)) :
    (map.map fun field => (field.1, f field.2)).mergeSort keyLe =
      (map.mergeSort keyLe).map fun field => (field.1, f field.2) := by
  refine (map_mergeSort fun a _ b _ => ?_).symm
  rfl

theorem lookup_perm {map map' : List (String × α)} (h : map.Perm map')
    (hnodup : (map.map Prod.fst).Nodup) (key : String) : map.lookup key = map'.lookup key := by
  induction h with
  | nil => rfl
  | cons field _ ih =>
    obtain ⟨name, value⟩ := field
    rw [lookup_cons, lookup_cons, ih (nodup_cons.mp hnodup).2]
  | swap first second map =>
    obtain ⟨a, v⟩ := first
    obtain ⟨b, w⟩ := second
    have hne : b ≠ a := by
      rintro rfl
      exact (nodup_cons.mp hnodup).1 mem_cons_self
    simp only [lookup_cons]
    by_cases ha : key = a
    · subst ha
      simp [beq_false_of_ne hne.symm]
    · simp [beq_false_of_ne ha]
  | trans h _ ih ih' => exact (ih hnodup).trans (ih' ((h.map Prod.fst).nodup_iff.mp hnodup))

theorem lookup_mergeSort {map : List (String × α)} (hnodup : (map.map Prod.fst).Nodup) (key : String) :
    (map.mergeSort keyLe).lookup key = map.lookup key :=
  (lookup_perm (mergeSort_perm map keyLe).symm hnodup key).symm

end Keys

end LexLang.Json
