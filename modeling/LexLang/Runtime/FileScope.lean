/-
# LexLang.Runtime.FileScope — the operations that touch the file system

`dispatch_fs` and the path checks (`lex-runtime/src/handler/fs.rs`), the arms of `dispatch` for `io`, `arrow`, `tls`
and `net.serve_tls` (`dispatch.rs`, `http_serve.rs`), and the static check of declared scopes (`policy.rs`). What an
operation does is the list of the places that it reads or writes; what it finds there is left out.
-/
import LexLang.Runtime.Path

namespace LexLang.Runtime

local instance : LawfulBEq Location := inferInstance

/-! ## The file system -/

inductive EntryKind
  | file
  | dir
  deriving DecidableEq

/-- A tree without symbolic links: what there is lies in a directory. -/
structure Disk where
  entries : List (Location × EntryKind)
  rooted : ([], .dir) ∈ entries
  grounded : ∀ l kind, (l, kind) ∈ entries → (l.dropLast, .dir) ∈ entries
  plain : ∀ l, (l, .file) ∈ entries → (l, .dir) ∉ entries

namespace Disk

variable (disk : Disk)

def present (l : Location) : Bool := l ∈ disk.entries.map Prod.fst

def isDir (l : Location) : Bool := (l, .dir) ∈ disk.entries

/-- The location and all that is below it. -/
def below (l : Location) : List Location := (disk.entries.map Prod.fst).filter (l.isPrefixOf ·)

end Disk

inductive AccessKind
  | read
  | write
  deriving DecidableEq

structure Access where
  kind : AccessKind
  place : Location
  deriving DecidableEq

/-! ## The handler -/

/-- An empty list of paths allows any path. -/
structure Policy where
  allowEffects : List String
  allowFsRead : List Path
  allowFsWrite : List Path

structure Handler where
  policy : Policy
  cwd : Location
  disk : Disk
  -- what the pattern of a glob expands to
  expand : String → List Path
  readRoot : Option Path
  hasProgram : Bool

namespace Handler

variable (h : Handler)

def ensureKindAllowed (kind : String) : Except String Unit :=
  if kind ∈ h.policy.allowEffects then .ok () else .error ("effect `" ++ kind ++ "` not in --allow-effects")

def resolveReadPath (p : String) : Path :=
  match h.readRoot with
  | some root => root.join (Path.ofString (String.ofList (p.toList.dropWhile (· = '/'))))
  | none => Path.ofString p

/-- `fs::canonicalize`: only what is there has a canonical path. -/
def canonicalize (p : Path) : Option Path :=
  let place := p.resolve h.cwd
  if p ≠ [] ∧ h.disk.present place then some (Path.ofLocation place) else none

/-! ### The checks -/

def underAny (roots : List Path) (p : Path) : Bool := roots.any (p.startsWith ·)

def ensureFsWalkPath (path : String) : Except String Unit :=
  if h.policy.allowFsRead.isEmpty || underAny h.policy.allowFsRead (Path.ofString path) then .ok ()
  else .error ("fs path `" ++ path ++ "` outside --allow-fs-read")

def ensureFsWritePath (path : String) : Except String Unit :=
  if h.policy.allowFsWrite.isEmpty || underAny h.policy.allowFsWrite (Path.ofString path) then .ok ()
  else .error ("fs path `" ++ path ++ "` outside --allow-fs-write")

def ensureFsReadContentPath (path : String) : Except String Path :=
  let resolved := h.resolveReadPath path
  if !h.policy.allowFsRead.isEmpty && !underAny h.policy.allowFsRead resolved then
    .error ("read of `" ++ path ++ "` outside --allow-fs-read")
  else .ok resolved

/-- The path of a file that may not be there yet: then its directory is looked up. -/
def canonicalTarget (path : Path) : Path :=
  let raw := (Path.ofLocation h.cwd).join path
  match h.canonicalize raw with
  | some p => p
  | none =>
    match raw.parent.bind h.canonicalize with
    | some par => par.join (raw.fileName.elim [] fun name => [.normal name])
    | none => raw

def ensureFsWriteContentPath (path : String) : Except String Unit :=
  if h.policy.allowFsWrite.isEmpty then .ok ()
  else if underAny (h.policy.allowFsWrite.map fun a => (h.canonicalize a).getD a) (h.canonicalTarget (Path.ofString path))
  then .ok ()
  else .error ("write to `" ++ path ++ "` outside --allow-fs-write")

/-! ### What is done to the file system -/

def reads (p : Path) : List Access := [⟨.read, p.resolve h.cwd⟩]

/-- `fs::write`, `File::create` and an `open` for appending: the file comes to lie in a directory. -/
def creates (p : Path) : List Access :=
  let place := p.resolve h.cwd
  if p.fileName.isSome ∧ h.disk.isDir place.dropLast ∧ ¬ h.disk.isDir place then [⟨.write, place⟩] else []

/-- `WalkDir`, from the path down. -/
def walks (p : Path) : List Access :=
  ⟨.read, p.resolve h.cwd⟩ :: (h.disk.below (p.resolve h.cwd)).map (⟨.read, ·⟩)

/-- `create_dir_all`, the components from the back: the directories that it makes. -/
def createDirAll : List Component → List Location
  | [] => []
  | c :: rest =>
    let place := Path.resolve h.cwd (c :: rest).reverse
    if h.disk.present place then []
    else if h.disk.present place.dropLast then if h.disk.isDir place.dropLast then [place] else []
    else
      let before := createDirAll rest
      before ++ if place ∉ before ∧ place.dropLast ∈ before then [place] else []

def removes (p : Path) : List Access :=
  let place := p.resolve h.cwd
  if h.disk.isDir place then (h.disk.below place).map (⟨.write, ·⟩)
  else if h.disk.present place then [⟨.write, place⟩]
  else []

/-- `fs::copy`: the source is opened first. -/
def copies (src dst : Path) : List Access :=
  h.reads src ++
    if h.disk.present (src.resolve h.cwd) ∧ ¬ h.disk.isDir (src.resolve h.cwd) then h.creates dst else []

end Handler

/-! ## The operations -/

inductive FsOp
  | fsExists | fsIsFile | fsIsDir | fsStat | fsListDir | fsWalk | fsGlob
  | fsReadToString | fsWrite | fsAppend | fsMkdirP | fsRemove | fsCopy
  | ioRead | ioWrite
  | arrowReadCsv | arrowReadParquet | arrowReadParquetCols | arrowWriteParquet | arrowWriteCsv
  | tlsFromPemFiles
  | netServeTls
  deriving DecidableEq

/-- The arguments that the operations look at. -/
structure Args where
  path : String
  -- where `fs.copy` copies to, the key of a certificate
  other : String
  port : Int

/-- What an operation answers: that it failed, an error as a value, or what it has done. -/
abbrev Reply := Except String (Except String (List Access))

namespace Handler

variable (h : Handler)

/-- An operation on a path that the walk check guards. -/
def walkGuarded (path : String) (act : Path → List Access) : Reply :=
  match h.ensureFsWalkPath path with
  | .error e => .ok (.error e)
  | .ok () => .ok (.ok (act (Path.ofString path)))

/-- An operation on a path that the write check guards. -/
def writeGuarded (context path : String) (act : Path → List Access) : Reply :=
  match h.ensureFsWritePath path with
  | .error e => .ok (.error (context ++ e))
  | .ok () => .ok (.ok (act (Path.ofString path)))

/-- An operation that reads the content of a file. -/
def readContent (path : String) : Reply := do
  let resolved ← h.ensureFsReadContentPath path
  .ok (.ok (h.reads resolved))

/-- An operation that writes the content of a file. -/
def writeContent (path : String) : Reply := do
  h.ensureFsWriteContentPath path
  .ok (.ok (h.creates (Path.ofString path)))

def glob (pattern : String) : Reply :=
  let shown := (h.expand pattern).filter fun p => h.policy.allowFsRead.isEmpty || underAny h.policy.allowFsRead p
  .ok (.ok (shown.flatMap h.reads))

def copy (src dst : String) : Reply :=
  match h.ensureFsWalkPath src with
  | .error e => .ok (.error e)
  | .ok () =>
    match h.ensureFsWritePath dst with
    | .error e => .ok (.error e)
    | .ok () => .ok (.ok (h.copies (Path.ofString src) (Path.ofString dst)))

/-- `arrow.read_csv`, `arrow.read_parquet`, `arrow.read_parquet_cols`. -/
def arrowRead (op path : String) : Reply :=
  let resolved := h.resolveReadPath path
  if !h.policy.allowFsRead.isEmpty && !underAny h.policy.allowFsRead resolved then
    .error ("arrow." ++ op ++ ": `" ++ path ++ "` outside --allow-fs-read")
  else .ok (.ok (h.reads resolved))

/-- `dispatch_tls_from_pem_files`: the key is read if the certificate is there. -/
def tlsFromPemFiles (certPath keyPath : String) : Reply :=
  let cert := h.resolveReadPath certPath
  let key := h.resolveReadPath keyPath
  let refuses (p : Path) : Bool := !h.policy.allowFsRead.isEmpty && !underAny h.policy.allowFsRead p
  if refuses cert then .ok (.error ("tls.from_pem_files: cert `" ++ certPath ++ "` outside --allow-fs-read"))
  else if refuses key then .ok (.error ("tls.from_pem_files: key `" ++ keyPath ++ "` outside --allow-fs-read"))
  else .ok (.ok (h.reads cert ++ if h.disk.present (cert.resolve h.cwd) then h.reads key else []))

/-- `net.serve_tls` asks for no path. -/
def serveTls (port : Int) (certPath keyPath : String) : Reply :=
  if ¬ (0 ≤ port ∧ port ≤ 65535) then .error "net.serve_tls(port, cert, key, handler): port must be Int 0..=65535"
  else if ¬ h.hasProgram then .error "net.serve_tls requires a Program reference"
  else
    let cert := Path.ofString certPath
    .ok (.ok (h.reads cert ++ if h.disk.present (cert.resolve h.cwd) then h.reads (Path.ofString keyPath) else []))

/-- The effects that the policy has to allow for an operation. -/
def effectsOf : FsOp → List String
  | .fsExists | .fsIsFile | .fsIsDir | .fsStat | .fsListDir | .fsWalk | .fsGlob => ["fs_walk"]
  | .fsReadToString => ["fs_read"]
  | .fsMkdirP | .fsRemove | .fsWrite | .fsAppend => ["fs_write"]
  | .fsCopy => ["fs_walk", "fs_write"]
  | .ioRead | .ioWrite => ["io"]
  | .arrowReadCsv | .arrowReadParquet | .arrowReadParquetCols => ["fs_read"]
  | .arrowWriteParquet | .arrowWriteCsv => ["fs_write"]
  | .tlsFromPemFiles => ["fs_read"]
  | .netServeTls => ["net"]

/-- The operation itself, once its effects are allowed. -/
def perform (op : FsOp) (args : Args) : Reply :=
  match op with
  | .fsExists | .fsIsFile | .fsIsDir | .fsStat | .fsListDir => h.walkGuarded args.path h.reads
  | .fsWalk => h.walkGuarded args.path h.walks
  | .fsGlob => h.glob args.path
  | .fsReadToString | .ioRead => h.readContent args.path
  | .fsWrite | .fsAppend | .ioWrite => h.writeContent args.path
  | .fsMkdirP => h.writeGuarded "" args.path fun p => (h.createDirAll p.reverse).map (⟨.write, ·⟩)
  | .fsRemove => h.writeGuarded "" args.path h.removes
  | .fsCopy => h.copy args.path args.other
  | .arrowReadCsv => h.arrowRead "read_csv" args.path
  | .arrowReadParquet => h.arrowRead "read_parquet" args.path
  | .arrowReadParquetCols => h.arrowRead "read_parquet_cols" args.path
  | .arrowWriteParquet => h.writeGuarded "arrow.write_parquet: " args.path h.creates
  | .arrowWriteCsv => h.writeGuarded "arrow.write_csv: " args.path h.creates
  | .tlsFromPemFiles => h.tlsFromPemFiles args.path args.other
  | .netServeTls => h.serveTls args.port args.path args.other

def dispatch (op : FsOp) (args : Args) : Reply := do
  (effectsOf op).forM h.ensureKindAllowed
  h.perform op args

end Handler

/-! ## The static check -/

/-- `path_under_any`: a declared scope lies under an allowed path. -/
def pathUnderAny (p : String) (roots : List Path) : Bool := roots.any ((Path.ofString p).startsWith ·)

/-- The path of a declared effect, for the check of `check_program`. -/
def Policy.scopeAllowed (policy : Policy) (kind : AccessKind) (path : String) : Bool :=
  match kind with
  | .read => pathUnderAny path policy.allowFsRead
  | .write => pathUnderAny path policy.allowFsWrite

end LexLang.Runtime
