/-
# LexLang.Store.Deps — the dependencies of a head, through the locks

`lex-store/src/deps.rs`: the recursive walk that reads the surface of every imported module, each package through the
lock it was published with, with its two caches, the heads on the current path and the pins it met. What a store holds
is a `Registry`: which store a lock entry pins, what a head imports and which lock governs it, and the surface of a
module once the dependencies of its head are known. Fuel bounds the depth of the walk.
-/
import LexLang.Types.Ty
import Mathlib.Data.Finset.Sort
import Mathlib.Data.String.Basic

namespace LexLang.Store.Deps

open LexLang.Types (Ty)
open LexLang.Ast (Stage TypeDecl)

/-! ## Locks -/

structure LockEntry where
  name : String
  registry : String
  constraint : String
  version : String
  headOp : Option String

structure LockFile where
  version : Nat
  packages : List LockEntry

def LockFile.entry (lock : LockFile) (name : String) : Option LockEntry :=
  lock.packages.find? fun e => e.name = name

/-! ## References -/

/-- The text before the first slash and the text after it. -/
def splitOnce : List Char → Option (List Char × List Char)
  | [] => none
  | c :: rest => if c = '/' then some ([], rest) else (splitOnce rest).map fun p => (c :: p.1, p.2)

/-- The package and the module of a package reference; a local or a standard import has none. -/
def splitPackageImport (reference : String) : Option (String × String) :=
  let text := reference.toList
  if "./".toList.isPrefixOf text || "../".toList.isPrefixOf text || "/".toList.isPrefixOf text ||
      "std.".toList.isPrefixOf text then
    none
  else
    (splitOnce text).map fun p => (String.ofList p.1, String.ofList p.2)

/-- The references that are imported, in order, each once. -/
def importRefs (stages : List Stage) : List String :=
  (stages.filterMap fun
    | .importDecl i => some i.reference
    | _ => none).eraseDups

/-! ## Results -/

inductive TypeError
  | unpinnedDependency (atNode reference package hint : String)
  | unresolvedDependency (atNode reference package reason : String)
  | dependencyConflict (atNode package : String) (heads : List String)

def TypeError.text : TypeError → String
  | .unpinnedDependency _ reference package hint =>
    "unpinned dependency: `import \"" ++ reference ++ "\"` needs package `" ++ package ++
      "`, which the lock does not pin; " ++ hint
  | .unresolvedDependency _ reference package reason =>
    "unresolved dependency: `import \"" ++ reference ++ "\"` (package `" ++ package ++ "`): " ++ reason
  | .dependencyConflict _ package heads =>
    "dependency conflict: package `" ++ package ++ "` is pinned to " ++ toString heads.length ++
      " different heads in the dependency closure (" ++ ", ".intercalate heads ++ ")"

def unpinnedHint : String :=
  "hosted verification resolves dependencies only through `lex.lock` pins into registry stores (it never fetches " ++
    "git): declare a registry source for it in `lex.toml` and run `lex pkg lock`"

def unpinned (reference package : String) : TypeError := .unpinnedDependency "n_0" reference package unpinnedHint

def unresolved (reference package reason : String) : TypeError :=
  .unresolvedDependency "n_0" reference package reason

structure ModuleSurface where
  record : Ty
  types : List TypeDecl
  prefix_ : Option String

structure ResolvedDeps where
  modules : String → Option Ty
  types : String → Option (List TypeDecl)
  prefixes : String → Option String
  diagnostics : List TypeError

namespace ResolvedDeps

def empty : ResolvedDeps := ⟨fun _ => none, fun _ => none, fun _ => none, []⟩

def report (out : ResolvedDeps) (e : TypeError) : ResolvedDeps := { out with diagnostics := out.diagnostics ++ [e] }

/-- The surface of the reference goes into the three maps. -/
def record (out : ResolvedDeps) (reference : String) (s : ModuleSurface) : ResolvedDeps where
  modules := Function.update out.modules reference (some s.record)
  types := if s.types.isEmpty then out.types else Function.update out.types reference (some s.types)
  prefixes :=
    match s.prefix_ with
    | some p => Function.update out.prefixes reference (some p)
    | none => out.prefixes
  diagnostics := out.diagnostics

end ResolvedDeps

/-! ## The walk -/

/-- A head of a store; the store is named by the identity that its locator gives it. -/
abbrev Node := String × String

/-- The stores that the locator can reach. -/
structure Registry where
  /-- `DepLocator::open`: the identity of the store that the entry pins. -/
  open_ : LockEntry → Except String String
  /-- `package_head_at_op`: what the head imports. -/
  flatImports : Node → Except String (List String)
  /-- `committed_lock_inherited` and `parse_lock`: the lock that governs the head. -/
  committedLock : Node → Option LockFile
  /-- `module_surface_at_op_with`: the module of the head, as a package of this name has it. -/
  moduleSurface : Node → String → String → ResolvedDeps → Except String ModuleSurface

structure Walk where
  surfaces : Node × String → Option (Except String ModuleSurface)
  deps : Node → Option ResolvedDeps
  visiting : Finset Node
  pins : Finset (String × String)

/-- What looks a surface up: the entry, the head, the package and the module. -/
abbrev Lookup := Walk → LockEntry → String → String → String → Option (Except String ModuleSurface × Walk)

def noHead (version : String) : String :=
  "the lock pins version " ++ version ++
    " but no op-log head; re-run `lex pkg lock` against a registry that serves heads"

/-- One reference of the loop of `resolve_refs`. -/
def resolveRef (look : Lookup) (lock : Option LockFile) (walk : Walk) (out : ResolvedDeps) (reference : String) :
    Option (ResolvedDeps × Walk) :=
  match splitPackageImport reference with
  | none => some (out, walk)
  | some (pkg, module) =>
    match lock.bind fun l => l.entry pkg with
    | none => some (out.report (unpinned reference pkg), walk)
    | some entry =>
      match entry.headOp with
      | none => some (out.report (unresolved reference pkg (noHead entry.version)), walk)
      | some head => do
        let (result, walk) ← look { walk with pins := insert (pkg, head) walk.pins } entry head pkg module
        match result with
        | .ok s => some (out.record reference s, walk)
        | .error reason => some (out.report (unresolved reference pkg reason), walk)

def resolveRefs (look : Lookup) (lock : Option LockFile) :
    List String → Walk → ResolvedDeps → Option (ResolvedDeps × Walk)
  | [], walk, out => some (out, walk)
  | reference :: rest, walk, out => do
    let (out, walk) ← resolveRef look lock walk out reference
    resolveRefs look lock rest walk out

/-- What a head needs, against its own lock. -/
def depsOf (registry : Registry) (look : Lookup) (walk : Walk) (node : Node) : Option (ResolvedDeps × Walk) :=
  match registry.flatImports node with
  | .error e =>
    some (ResolvedDeps.empty.report (unresolved "" "" ("reading head " ++ node.2 ++ ": " ++ e)), walk)
  | .ok refs =>
    if refs.any fun r => (splitPackageImport r).isSome then
      resolveRefs look (registry.committedLock node) refs walk .empty
    else some (.empty, walk)

/-- The dependencies of a head are looked for in the cache, or they are resolved with the head on the path. -/
def depsAt (registry : Registry) (look : Lookup) (walk : Walk) (node : Node) : Option (ResolvedDeps × Walk) :=
  match walk.deps node with
  | some d => some (d, walk)
  | none => do
    let (d, walk) ← depsOf registry look { walk with visiting := insert node walk.visiting } node
    some (d, { walk with
      visiting := walk.visiting.erase node
      deps := Function.update walk.deps node (some d) })

def surface (registry : Registry) : Nat → Lookup
  | 0, _, _, _, _, _ => none
  | fuel + 1, walk, entry, head, pkg, module =>
    match registry.open_ entry with
    | .error reason => some (.error reason, walk)
    | .ok id =>
      let node := (id, head)
      match walk.surfaces (node, module) with
      | some hit => some (hit, walk)
      | none =>
        if node ∈ walk.visiting then
          -- not cached: whether this is a cycle depends on the path
          some (.error ("dependency cycle: `" ++ pkg ++ "` at " ++ head ++ " depends on itself"), walk)
        else do
          let (deps, walk) ← depsAt registry (surface registry fuel) walk node
          let result :=
            if deps.diagnostics.isEmpty then registry.moduleSurface node pkg module deps
            else
              .error ("its own dependencies do not resolve: " ++
                "; ".intercalate (deps.diagnostics.map TypeError.text))
          some (result, { walk with surfaces := Function.update walk.surfaces (node, module) (some result) })

/-- The heads that a package was pinned to. -/
def Walk.headsOf (walk : Walk) (package : String) : Finset String :=
  (walk.pins.filter fun pin => pin.1 = package).image Prod.snd

/-- The packages that were pinned to more than one head, in order. -/
def Walk.conflicts (walk : Walk) : List TypeError :=
  ((walk.pins.image Prod.fst).sort.filter fun package => 1 < (walk.headsOf package).card).map fun package =>
    .dependencyConflict "n_0" package (walk.headsOf package).sort

def resolveWithLock (registry : Registry) (fuel : Nat) (stages : List Stage) (lock : Option LockFile) :
    Option ResolvedDeps := do
  let (out, walk) ← resolveRefs (surface registry fuel) lock (importRefs stages)
    ⟨fun _ => none, fun _ => none, ∅, ∅⟩ .empty
  some { out with diagnostics := out.diagnostics ++ walk.conflicts }

end LexLang.Store.Deps
