/-
# LexLang.Runtime.Path — paths, and where they lead

A path is the list of its components, as `Path::components` yields them. Without symbolic links it leads to one
location: each name goes down, each `..` goes up.
-/
import Mathlib.Data.List.Infix

namespace LexLang.Runtime

open List

inductive Component
  | rootDir
  | curDir
  | parentDir
  | normal (name : String)
  deriving DecidableEq

abbrev Path := List Component

/-- The names from the root down. -/
abbrev Location := List String

namespace Path

/-- A component of a text that was cut at the slashes. -/
def componentOf (part : List Char) : Component :=
  if part = ['.'] then .curDir else if part = ['.', '.'] then .parentDir else .normal (String.ofList part)

/-- `Path::components`: `.` counts at the front of a relative path only. -/
def ofString (text : String) : Path :=
  let parts := ((text.toList.splitOn '/').filter (· ≠ [])).map componentOf
  if text.toList.head? = some '/' then .rootDir :: parts.filter (· ≠ .curDir)
  else
    match parts with
    | .curDir :: rest => .curDir :: rest.filter (· ≠ .curDir)
    | parts => parts.filter (· ≠ .curDir)

def startsWith (p base : Path) : Bool := base.isPrefixOf p

def isAbsolute : Path → Bool
  | .rootDir :: _ => true
  | _ => false

/-- A path behind another loses the `.` at its front. -/
def join (p q : Path) : Path :=
  if q.isAbsolute then q
  else
    match p, q with
    | [], q => q
    | p, .curDir :: rest => p ++ rest
    | p, q => p ++ q

def parent (p : Path) : Option Path :=
  match p.getLast? with
  | none | some .rootDir => none
  | _ => some p.dropLast

def fileName (p : Path) : Option String :=
  match p.getLast? with
  | some (.normal name) => some name
  | _ => none

/-- The absolute path of a location. -/
def ofLocation (l : Location) : Path := .rootDir :: l.map .normal

end Path

/-! ## Where a path leads -/

def Component.enter (l : Location) : Component → Location
  | .rootDir => []
  | .curDir => l
  | .parentDir => l.dropLast
  | .normal name => l ++ [name]

namespace Path

variable {cwd : Location}

/-- **Where the path leads** from the current directory. -/
def resolve (cwd : Location) (p : Path) : Location := p.foldl Component.enter cwd

/-- The path never goes to a place that it leaves for good. -/
def Straight (cwd : Location) (p : Path) : Prop :=
  ∀ a, a ≠ [] → a <+: p → resolve cwd a <+: resolve cwd p

@[simp] theorem resolve_nil : resolve cwd [] = cwd := rfl

@[simp] theorem resolve_append (p q : Path) : resolve cwd (p ++ q) = resolve (resolve cwd p) q :=
  foldl_append

@[simp] theorem resolve_cons (c : Component) (p : Path) : resolve cwd (c :: p) = resolve (c.enter cwd) p := rfl

@[simp] theorem resolve_normals (l : Location) : resolve cwd (l.map .normal) = cwd ++ l := by
  induction l generalizing cwd with
  | nil => simp
  | cons name l ih => simp [Component.enter, ih]

@[simp] theorem resolve_ofLocation (l : Location) : resolve cwd (ofLocation l) = l := by
  simp [ofLocation, Component.enter]

theorem resolve_join_cwd (l : Location) (p : Path) : resolve l (join (ofLocation cwd) p) = resolve cwd p := by
  rcases p with _ | ⟨c, p⟩
  · simp [join, isAbsolute, ofLocation, Component.enter]
  · cases c <;> simp [join, isAbsolute, ofLocation, Component.enter]

theorem map_normal_injective : Function.Injective (List.map Component.normal) :=
  map_injective_iff.mpr fun _ _ eq => Component.normal.inj eq

theorem prefix_ofLocation_iff {a : Path} (named : a ≠ []) {l : Location} :
    a <+: ofLocation l ↔ ∃ b, a = ofLocation b ∧ b <+: l := by
  rcases a with _ | ⟨c, a⟩
  · exact absurd rfl named
  · simp only [ofLocation, cons_prefix_cons, prefix_map_iff, List.cons.injEq]
    constructor
    · rintro ⟨rfl, b, front, rfl⟩
      exact ⟨b, ⟨rfl, rfl⟩, front⟩
    · rintro ⟨b, ⟨rfl, rfl⟩, front⟩
      exact ⟨rfl, b, front, rfl⟩

theorem ofLocation_prefix_iff {a b : Location} : ofLocation a <+: ofLocation b ↔ a <+: b := by
  rw [prefix_ofLocation_iff (by simp [ofLocation])]
  constructor
  · rintro ⟨b, eq, front⟩
    rw [map_normal_injective (List.cons.inj eq).2]
    exact front
  · exact fun front => ⟨a, rfl, front⟩

theorem join_concat (l : Location) (p : Path) (name : String) :
    (ofLocation l).join (p ++ [Component.normal name]) = (ofLocation l).join p ++ [Component.normal name] := by
  rcases p with _ | ⟨c, p⟩
  · simp [join, isAbsolute, ofLocation]
  · cases c <;> simp [join, isAbsolute, ofLocation]

theorem join_ne_nil (l : Location) (p : Path) : (ofLocation l).join p ≠ [] := by
  rcases p with _ | ⟨c, p⟩
  · simp [join, isAbsolute, ofLocation]
  · cases c <;> simp [join, isAbsolute, ofLocation]

theorem join_name (l : Location) (name : String) : (ofLocation l).join [.normal name] = ofLocation (l ++ [name]) := by
  simp [join, isAbsolute, ofLocation]

theorem exists_concat_of_fileName {p : Path} {name : String} (last : p.fileName = some name) :
    ∃ q : Path, p = q ++ [Component.normal name] := by
  simp only [fileName] at last
  split at last
  · next found =>
    cases last
    exact ⟨p.dropLast, (dropLast_append_getLast? _ found).symm⟩
  · cases last

@[simp] theorem parent_concat (p : Path) (name : String) : parent (p ++ [Component.normal name]) = some p := by
  simp [parent]

@[simp] theorem fileName_concat (p : Path) (name : String) : fileName (p ++ [Component.normal name]) = some name := by
  simp [fileName]

/-- The path of a location, written without detours. -/
def Direct (p : Path) : Prop := ∃ l, p = ofLocation l

theorem prefix_resolve {p : Path} (down : ∀ c ∈ p, c ≠ .parentDir ∧ c ≠ .rootDir) (l : Location) :
    l <+: resolve l p := by
  induction p generalizing l with
  | nil => exact prefix_rfl
  | cons c p ih =>
    simp only [forall_mem_cons] at down
    refine IsPrefix.trans ?_ (ih down.2 _)
    cases c with
    | rootDir => exact absurd rfl down.1.2
    | parentDir => exact absurd rfl down.1.1
    | curDir => exact prefix_rfl
    | normal name => exact prefix_append _ _

theorem rootDir_notMem_tail (text : String) : .rootDir ∉ (ofString text).tail := by
  have parts : ∀ c ∈ ((text.toList.splitOn '/').filter (· ≠ [])).map componentOf, c ≠ .rootDir := by
    simp only [forall_mem_map]
    intro part _
    simp only [componentOf]
    split
    · simp
    · split <;> simp
  simp only [ofString]
  generalize ((text.toList.splitOn '/').filter (· ≠ [])).map componentOf = cs at parts
  split
  · exact fun mem => parts _ (mem_filter.mp mem).1 rfl
  · split
    · exact fun mem => parts _ (mem_cons_of_mem _ (mem_filter.mp mem).1) rfl
    · exact fun mem => parts _ (mem_filter.mp (mem_of_mem_tail mem)).1 rfl

/-- **A path without `..` is straight.** -/
theorem straight_of_notMem {cwd : Location} {text : String} (down : .parentDir ∉ ofString text) :
    (ofString text).Straight cwd := by
  rintro a named ⟨rest, eq⟩
  rw [← eq, resolve_append]
  refine prefix_resolve (fun c mem => ⟨?_, ?_⟩) _
  · rintro rfl
    exact down (eq ▸ mem_append_right _ mem)
  · rintro rfl
    obtain ⟨c, a, rfl⟩ := exists_cons_of_ne_nil named
    exact rootDir_notMem_tail text (by rw [← eq]; exact mem_append_right _ mem)

end Path

end LexLang.Runtime
