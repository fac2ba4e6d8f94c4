/-
# LexLang.Loader.Load — several files, one program

`lex-syntax/src/loader.rs`: the files are visited depth first along their imports, each once; every file
but the entry of a program gets a prefix of its own, and what it declares is mangled. An import of a local
file, or of a package that is inlined, disappears; any other is kept, under a new alias where another
module has claimed the one it asks for.

What a load gives is a list of declarations, each with the file and the declaration it was made from.
-/
import LexLang.Loader.Mangler
import LexLang.Loader.Occurrences

namespace LexLang.Loader

open LexLang.Syntax
open String

/-! ## Files -/

/-- The components of an absolute path without symbolic links. -/
abbrev Canonical := List String

/-- What the file system, the parser and the resolver of packages refuse. -/
inductive FileError
  | io (path : Canonical)
  | syntaxError (path : Canonical)
  | notFound (importer : Canonical) (reference : String)
  | package (reference : String)
  deriving DecidableEq

inductive LoadError
  | file (e : FileError)
  | cycle (chain : List Canonical)
  | conflictingAlias (aliasName first second : String)
  /-- No run ends with this one. -/
  | exhausted
  deriving DecidableEq

deriving instance DecidableEq for Import

def declaredName : Item → Option String
  | .importDecl _ => none
  | .typeDecl td => some td.name
  | .fnDecl fd => some fd.name

def asImport : Item → Option Import
  | .importDecl i => some i
  | _ => none

/-- The names a program declares. -/
def declaredNames (p : Program) : List String := p.items.filterMap declaredName

/-- **What a parser promises**: a name is an identifier, without a dot. -/
structure Parsed (p : Program) : Prop where
  declared : ∀ name ∈ declaredNames p, dotted name = false
  imported : ∀ i ∈ p.items.filterMap asImport, dotted i.importAlias = false
  bound : ∀ item ∈ p.items, ∀ o ∈ itemOccurrences item,
    (∀ name ∈ o.site.names, dotted name = false) ∧ ∀ name ∈ o.site.typeParams, dotted name = false

/-- A parsed file. -/
structure SourceFile where
  program : Program
  parsed : Parsed program

/-- What the loader asks of the file system, of the resolver of packages and of SHA-256. -/
structure Disk where
  files : List Canonical
  parse : Canonical → Except FileError SourceFile
  mem_files : ∀ c file, parse c = .ok file → c ∈ files
  canonicalize : String → Except FileError Canonical
  /-- `resolve_import`. -/
  resolveImport : Canonical → String → Except FileError Canonical
  /-- `resolve_package_import`, canonicalized. -/
  resolvePackageImport : Canonical → String → String → Except FileError Canonical
  /-- The directory of the manifest that a file is under. -/
  packageRoot : Canonical → Option Canonical
  /-- The first 8 hexadecimal digits of the SHA-256 of a text. -/
  hash8 : String → String

def fromDisk {α : Type} : Except FileError α → Except LoadError α := Except.mapError LoadError.file

/-! ## References -/

def startsWith (text start : String) : Bool := start.toList.isPrefixOf text.toList

def isPathImport (reference : String) : Bool :=
  startsWith reference "./" || startsWith reference "../" || startsWith reference "/"

/-- Package and module of a reference that is neither a path nor of the standard library. -/
def splitPackageImport (reference : String) : Option (String × String) :=
  if isPathImport reference || startsWith reference "std." then none else splitOnce '/' reference

/-! ## Prefixes -/

/-- `Path::file_stem`. -/
def fileStem (c : Canonical) : String :=
  match c.getLast? with
  | none => "module"
  | some name =>
    let stem := ((name.toList.reverse.dropWhile (· ≠ '.')).drop 1).reverse
    if stem = [] then name else ofList stem

/-- Where prefixes are taken from: paths below the root, under the namespace. -/
structure Naming where
  root : Option Canonical
  namespaceName : Option String

/-- `relative_key`. -/
def Naming.relativeKey (naming : Naming) (c : Canonical) : Option String :=
  match naming.root with
  | none => none
  | some root =>
    if root.isPrefixOf c && root.length < c.length then some (intercalate "/" (c.drop root.length))
    else none

/-- `mangling_key`. -/
def Naming.manglingKey (naming : Naming) (c : Canonical) : String :=
  match naming.relativeKey c, naming.namespaceName with
  | some rel, some ns => ns ++ "/" ++ rel
  | some rel, none => rel
  | none, _ => "/" ++ intercalate "/" c

/-! ## The state of a load -/

/-- A declaration of the merged program, with what it was made from. -/
structure Merged where
  file : Canonical
  source : Item
  item : Item

/-- A file that has been read, and the mangler its declarations went through. -/
structure LoadedFile where
  file : Canonical
  source : SourceFile
  mangler : Mangler

structure LoaderState where
  inProgress : List Canonical
  loaded : List Canonical
  prefixes : Canonical → Option String
  naming : Naming
  /-- From an alias to the reference that claimed it. -/
  claimedAliases : List (String × String)
  /-- The files loaded so far, in the order they were finished. -/
  units : List LoadedFile

variable (disk : Disk)

/-- `prefix_for`. -/
def prefixFor (st : LoaderState) (c : Canonical) : String × LoaderState :=
  match st.prefixes c with
  | some p => (p, st)
  | none =>
    let p := fileStem c ++ "_" ++ disk.hash8 (st.naming.manglingKey c)
    (p, { st with prefixes := Function.update st.prefixes c (some p) })

/-- More names than are claimed. -/
def aliasCandidates (claimed : List (String × String)) (base : String) : List String :=
  (List.range' 2 (claimed.length + 1)).map fun n => base ++ "__" ++ toString n

/-- `fresh_alias`: the first that is not claimed. -/
def freshAlias (claimed : List (String × String)) (base : String) : String :=
  ((aliasCandidates claimed base).find? fun candidate => (claimed.lookup candidate).isNone).getD base

/-- The locals of `load`, while the items of a file are gone through. -/
structure Progress where
  state : LoaderState
  pathImports : String → Option String
  aliasRenames : String → Option String
  mergedChildren : List Merged
  stdImports : List Import
  myItems : List Item

/-- Keep an import, under an alias that means one module in the whole program. -/
def keepImport (w : Progress) (i : Import) : Progress :=
  match w.state.claimedAliases.lookup i.importAlias with
  | some claimed =>
    if claimed = i.reference then { w with stdImports := w.stdImports ++ [i] }
    else
      let fresh := freshAlias w.state.claimedAliases i.importAlias
      { w with
        aliasRenames := Function.update w.aliasRenames i.importAlias (some fresh)
        state := { w.state with claimedAliases := (fresh, i.reference) :: w.state.claimedAliases }
        stdImports := w.stdImports ++ [{ i with importAlias := fresh }] }
  | none =>
    { w with
      state := { w.state with claimedAliases := (i.importAlias, i.reference) :: w.state.claimedAliases }
      stdImports := w.stdImports ++ [i] }

/-- What loads a file: its items, and the state after. -/
abbrev Loads := Canonical → LoaderState → Except LoadError (List Merged × LoaderState)

/-- Load the file an import leads to; the alias stands for the file's prefix. -/
def inlineImport (loadChild : Loads) (w : Progress) (st : LoaderState) (i : Import) (resolved : Canonical) :
    Except LoadError Progress := do
  let (childPrefix, st) := prefixFor disk st resolved
  let (items, st) ← loadChild resolved st
  return { w with
    state := st
    pathImports := Function.update w.pathImports i.importAlias (some childPrefix)
    mergedChildren := w.mergedChildren ++ items }

/-- One item of a file. -/
def visitItem (inlinePackages : Bool) (loadChild : Loads) (c : Canonical) (w : Progress) :
    Item → Except LoadError Progress
  | .importDecl i =>
    if isPathImport i.reference then do
      let resolved ← fromDisk (disk.resolveImport c i.reference)
      inlineImport disk loadChild w w.state i resolved
    else
      match (if inlinePackages then splitPackageImport i.reference else none) with
      | some (pkg, module) => do
        let resolved ← fromDisk (disk.resolvePackageImport c pkg module)
        -- the files of a dependency are named by the dependency's own root
        let st := match disk.packageRoot resolved with
          | some root => { w.state with naming := ⟨some root, some pkg⟩ }
          | none => w.state
        let w' ← inlineImport disk loadChild w st i resolved
        return { w' with state := { w'.state with naming := w.state.naming } }
      | none => .ok (keepImport w i)
  | item => .ok { w with myItems := w.myItems ++ [item] }

/-- The comments at the top of a file go to its first declaration. -/
def attachHeader (header : List String) : Item → Item
  | .importDecl i => .importDecl i
  | .typeDecl td => .typeDecl { td with leadingComments := header ++ td.leadingComments }
  | .fnDecl fd => .fnDecl { fd with leadingComments := header ++ fd.leadingComments }

def attachToFirst (header : List String) : List Merged → List Merged
  | [] => []
  | e :: es => { e with item := attachHeader header e.item } :: es

/-- The output of one file: imports that no child has, the children's items, its own. -/
def assemble (c : Canonical) (stdImports : List Import) (mergedChildren mangled : List Merged) : List Merged :=
  ((stdImports.filter fun i => !mergedChildren.any fun e => asImport e.item = some i).map fun i =>
    ⟨c, .importDecl i, .importDecl i⟩) ++ mergedChildren ++ mangled

/-- **`LoaderState::load`.** The fuel bounds the depth of the recursion. -/
def load (inlinePackages : Bool) : Nat → Loads
  | 0, _, _ => .error .exhausted
  | fuel + 1, c, st =>
    if c ∈ st.inProgress then .error (.cycle (st.inProgress ++ [c]))
    else if c ∈ st.loaded then .ok ([], st)
    else do
      let source ← fromDisk (disk.parse c)
      let w ← source.program.items.foldlM (visitItem disk inlinePackages (load inlinePackages fuel) c)
        { state := { st with inProgress := st.inProgress ++ [c] }
          pathImports := fun _ => none
          aliasRenames := fun _ => none
          mergedChildren := []
          stdImports := []
          myItems := [] }
      let (myPrefix, st) := prefixFor disk w.state c
      let mangler : Mangler := ⟨myPrefix, declaredNames source.program, w.pathImports, w.aliasRenames⟩
      let mangled := attachToFirst source.program.leadingComments
        (w.myItems.map fun item => ⟨c, item, mangler.mangleItem item⟩)
      return (assemble c w.stdImports w.mergedChildren mangled,
        { st with
          inProgress := st.inProgress.dropLast
          loaded := c :: st.loaded
          units := st.units ++ [⟨c, source, mangler⟩] })

/-- No file is deeper than there are files. -/
def loadFile (inlinePackages : Bool) : Loads := load disk inlinePackages (disk.files.length + 1)

/-! ## Entry points -/

def LoaderState.start (naming : Naming) : LoaderState where
  inProgress := []
  loaded := []
  prefixes := fun _ => none
  naming := naming
  claimedAliases := []
  units := []

/-- `load_rooted`: the entry has no prefix, and packages are inlined. -/
def loadRooted (entry : String) (root : Option Canonical) : Except LoadError (List Merged × LoaderState) := do
  let c ← fromDisk (disk.canonicalize entry)
  let st := LoaderState.start ⟨root, none⟩
  loadFile disk true c { st with prefixes := Function.update st.prefixes c (some "") }

/-- The items of one entry of a package join those before; an import that is there already is left out. -/
def joinItem (joined : List Merged) (e : Merged) : Except LoadError (List Merged) :=
  match asImport e.item with
  | none => .ok (joined ++ [e])
  | some i =>
    match (joined.filterMap fun e => asImport e.item).find? fun j => j.importAlias = i.importAlias with
    | some j =>
      if j.reference = i.reference then .ok joined
      else .error (.conflictingAlias i.importAlias j.reference i.reference)
    | none => .ok (joined ++ [e])

def loadEntry (inlinePackages : Bool) (joined : List Merged × LoaderState) (entry : String) :
    Except LoadError (List Merged × LoaderState) := do
  let c ← fromDisk (disk.canonicalize entry)
  let (items, st) ← loadFile disk inlinePackages c joined.2
  let joined ← items.foldlM joinItem joined.1
  return (joined, st)

/-- **`load_package`**: every file has a prefix. -/
def loadPackage (entries : List String) (root : Canonical) (namespaceName : String) (inlinePackages : Bool) :
    Except LoadError (List Merged × LoaderState) :=
  entries.foldlM (loadEntry disk inlinePackages) ([], .start ⟨some root, some namespaceName⟩)

end LexLang.Loader
