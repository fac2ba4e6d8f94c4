/-
# LexLang.Runtime.FileScopeExact — which operations stay under the allowed paths

The checks compare the components of paths as they are written. That keeps an operation under an
allowed path as long as its paths are straight.
-/
import LexLang.Runtime.FileScope

namespace LexLang.Runtime

open List Option

/-! ## Confinement -/

def Policy.roots (policy : Policy) : AccessKind → List Path
  | .read => policy.allowFsRead
  | .write => policy.allowFsWrite

/-- Both lists say something, and no allowed path is the empty one. -/
structure Policy.Limited (policy : Policy) : Prop where
  read : policy.allowFsRead ≠ []
  write : policy.allowFsWrite ≠ []
  named : ∀ kind, ∀ a ∈ policy.roots kind, a ≠ []

def Reply.accesses : Reply → List Access
  | .ok (.ok accesses) => accesses
  | _ => []

namespace Handler

variable (h : Handler)

/-- The access is at or below an allowed path. -/
def Allowed (x : Access) : Prop := ∃ a ∈ h.policy.roots x.kind, a.resolve h.cwd <+: x.place

instance (x : Access) : Decidable (h.Allowed x) := inferInstanceAs (Decidable (∃ a ∈ _, _))

/-- **Whatever the operation touches is under an allowed path.** -/
def Confined (op : FsOp) (args : Args) : Prop := ∀ x ∈ Reply.accesses (h.dispatch op args), h.Allowed x

instance (op : FsOp) (args : Args) : Decidable (h.Confined op args) := inferInstanceAs (Decidable (∀ x ∈ _, _))

/-- The paths that the operation goes to. -/
def paths (op : FsOp) (args : Args) : List Path :=
  match op with
  | .fsGlob => h.expand args.path
  | .fsReadToString | .ioRead | .arrowReadCsv | .arrowReadParquet | .arrowReadParquetCols =>
    [h.resolveReadPath args.path]
  | .tlsFromPemFiles => [h.resolveReadPath args.path, h.resolveReadPath args.other]
  | .fsCopy | .netServeTls => [Path.ofString args.path, Path.ofString args.other]
  | _ => [Path.ofString args.path]

end Handler

/-- The operations that look up where their path leads. -/
def FsOp.Canonical (op : FsOp) : Prop := op = .fsWrite ∨ op = .fsAppend ∨ op = .ioWrite

variable {l : Location}

namespace Disk

variable {disk : Disk}

theorem present_of_isDir (dir : disk.isDir l = true) : disk.present l = true := by
  simp only [isDir, present, decide_eq_true_eq] at dir ⊢
  exact List.mem_map.mpr ⟨_, dir, rfl⟩

theorem isDir_dropLast (there : disk.present l = true) : disk.isDir l.dropLast = true := by
  simp only [isDir, present, decide_eq_true_eq, List.mem_map] at there ⊢
  obtain ⟨⟨l, kind⟩, mem, rfl⟩ := there
  exact disk.grounded l kind mem

/-- What is above something is there. -/
theorem present_of_prefix {l' : Location} (there : disk.present l = true) (above : l' <+: l) :
    disk.present l' = true := by
  obtain ⟨rest, rfl⟩ := above
  induction rest using reverseRecOn with
  | nil => simpa using there
  | append_singleton rest name ih =>
    refine ih (present_of_isDir ?_)
    simpa [← append_assoc] using isDir_dropLast there

theorem prefix_of_mem_below {x : Location} (mem : x ∈ disk.below l) : l <+: x := by
  simpa using (mem_filter.mp mem).2

end Disk

variable {op : FsOp}

namespace Handler

variable {h : Handler} {kind : AccessKind} {p : Path}

/-! ## Straight paths -/

/-- Some allowed path is the front of the path, component by component. -/
def Fronted (h : Handler) (kind : AccessKind) (p : Path) : Prop := ∃ a ∈ h.policy.roots kind, a <+: p

theorem underAny_iff {roots : List Path} : underAny roots p = true ↔ ∃ a ∈ roots, a <+: p := by
  simp [underAny, Path.startsWith]

variable (limited : h.policy.Limited)
include limited

variable (straight : p.Straight h.cwd)
include straight

theorem allowed_of_straight (fronted : h.Fronted kind p)
    {x : Location} (below : p.resolve h.cwd <+: x) : h.Allowed ⟨kind, x⟩ := by
  obtain ⟨a, mem, front⟩ := fronted
  exact ⟨a, mem, (straight a (limited.named kind a mem) front).trans below⟩

theorem reads_allowed (fronted : h.Fronted .read p) : ∀ x ∈ h.reads p, h.Allowed x := by
  intro x mem
  rw [mem_singleton.mp mem]
  exact allowed_of_straight limited straight fronted prefix_rfl

theorem walks_allowed (fronted : h.Fronted .read p) : ∀ x ∈ h.walks p, h.Allowed x := by
  intro x mem
  rcases mem_cons.mp mem with rfl | mem
  · exact allowed_of_straight limited straight fronted prefix_rfl
  · obtain ⟨l, memBelow, rfl⟩ := List.mem_map.mp mem
    exact allowed_of_straight limited straight fronted (Disk.prefix_of_mem_below memBelow)

omit limited straight in
theorem creates_place {x : Access} (mem : x ∈ h.creates p) : x = ⟨.write, p.resolve h.cwd⟩ ∧ p.fileName.isSome ∧
    h.disk.isDir (p.resolve h.cwd).dropLast = true ∧ h.disk.isDir (p.resolve h.cwd) = false := by
  simp only [creates] at mem
  split at mem
  · next takes => exact ⟨mem_singleton.mp mem, takes.1, takes.2.1, by simpa using takes.2.2⟩
  · cases mem

theorem creates_allowed (fronted : h.Fronted .write p) : ∀ x ∈ h.creates p, h.Allowed x := by
  intro x mem
  rw [(creates_place mem).1]
  exact allowed_of_straight limited straight fronted prefix_rfl

theorem removes_allowed (fronted : h.Fronted .write p) : ∀ x ∈ h.removes p, h.Allowed x := by
  intro x mem
  simp only [removes] at mem
  split at mem
  · obtain ⟨l, memBelow, rfl⟩ := List.mem_map.mp mem
    exact allowed_of_straight limited straight fronted (Disk.prefix_of_mem_below memBelow)
  · split at mem
    · rw [mem_singleton.mp mem]
      exact allowed_of_straight limited straight fronted prefix_rfl
    · cases mem

omit limited straight in
/-- Each directory that is made is missing, and is where the path gets to on its way. -/
theorem mem_createDirAll {cs : List Component} (mem : l ∈ h.createDirAll cs) :
    ∃ q : Path, q ≠ [] ∧ q <+: cs.reverse ∧ l = q.resolve h.cwd ∧ h.disk.present l = false := by
  induction cs with
  | nil => cases mem
  | cons c rest ih =>
    simp only [createDirAll] at mem
    split at mem
    · cases mem
    · next missing =>
      have here : ∀ {l}, l = Path.resolve h.cwd (c :: rest).reverse →
          ∃ q : Path, q ≠ [] ∧ q <+: (c :: rest).reverse ∧ l = q.resolve h.cwd ∧ h.disk.present l = false := by
        rintro l rfl
        exact ⟨_, by simp, prefix_rfl, rfl, by simpa using missing⟩
      split at mem
      · split at mem
        · exact here (mem_singleton.mp mem)
        · cases mem
      · rcases mem_append.mp mem with mem | mem
        · obtain ⟨q, named, front, rest⟩ := ih mem
          exact ⟨q, named, front.trans (by simp), rest⟩
        · split at mem
          · exact here (mem_singleton.mp mem)
          · cases mem

/-- Where the allowed paths are there, no directory is made above them. -/
theorem createDirAll_allowed (fronted : h.Fronted .write p)
    (there : ∀ a ∈ h.policy.allowFsWrite, h.disk.present (a.resolve h.cwd) = true) :
    ∀ x ∈ (h.createDirAll p.reverse).map (Access.mk .write), h.Allowed x := by
  intro x mem
  obtain ⟨l, memMade, rfl⟩ := List.mem_map.mp mem
  obtain ⟨q, named, front, rfl, missing⟩ := mem_createDirAll memMade
  rw [reverse_reverse] at front
  obtain ⟨a, root, frontRoot⟩ := fronted
  have way := straight q named front
  have wayRoot := straight a (limited.named .write a root) frontRoot
  refine ⟨a, root, prefix_of_prefix_length_le wayRoot way ?_⟩
  show (Path.resolve h.cwd a).length ≤ (Path.resolve h.cwd q).length
  by_contra longer
  have above := prefix_of_prefix_length_le way wayRoot (by omega)
  have := Disk.present_of_prefix (there a root) above
  simp [missing] at this

omit straight

/-! ## Looking up where a path leads -/

omit limited in
theorem canonicalize_eq_some {q : Path} : h.canonicalize p = some q ↔
    p ≠ [] ∧ h.disk.present (p.resolve h.cwd) = true ∧ q = Path.ofLocation (p.resolve h.cwd) := by
  simp only [canonicalize]
  split
  · next there => simp [there.1, there.2, eq_comm]
  · next missing => simpa using fun named there => absurd ⟨named, there⟩ missing

/-- The roots of the content check front the path of a location if they lead above it. -/
theorem allowed_of_target
    (under : underAny (h.policy.allowFsWrite.map fun a => (h.canonicalize a).getD a) (Path.ofLocation l) = true) :
    h.Allowed ⟨.write, l⟩ := by
  obtain ⟨_, mem, front⟩ := underAny_iff.mp under
  obtain ⟨a, root, rfl⟩ := List.mem_map.mp mem
  refine ⟨a, root, ?_⟩
  cases found : h.canonicalize a with
  | some q =>
    obtain ⟨-, -, rfl⟩ := canonicalize_eq_some.mp found
    rw [found] at front
    exact Path.ofLocation_prefix_iff.mp front
  | none =>
    rw [found] at front
    obtain ⟨b, eq, above⟩ := (Path.prefix_ofLocation_iff (limited.named .write a root)).mp front
    obtain rfl : a = Path.ofLocation b := eq
    simpa using above

omit limited in
/-- Where a file can be created, the path that is checked is the one that it leads to. -/
theorem canonicalTarget_eq {x : Access} (mem : x ∈ h.creates p) :
    h.canonicalTarget p = Path.ofLocation (p.resolve h.cwd) := by
  obtain ⟨-, file, dir, -⟩ := creates_place mem
  obtain ⟨name, last⟩ := isSome_iff_exists.mp file
  obtain ⟨q, rfl⟩ := Path.exists_concat_of_fileName last
  have leads : Path.resolve h.cwd ((Path.ofLocation h.cwd).join q) = Path.resolve h.cwd q := Path.resolve_join_cwd _ _
  simp only [Path.resolve_append, Path.resolve_cons, Component.enter, Path.resolve_nil, dropLast_concat] at dir ⊢
  simp only [canonicalTarget, Path.join_concat, Path.parent_concat, Path.fileName_concat, bind_some,
    elim_some]
  split
  · next found =>
    obtain ⟨-, -, rfl⟩ := canonicalize_eq_some.mp found
    simp [leads, Component.enter]
  · have above : h.canonicalize ((Path.ofLocation h.cwd).join q) = some (Path.ofLocation (Path.resolve h.cwd q)) :=
      canonicalize_eq_some.mpr ⟨Path.join_ne_nil _ _, by rw [leads]; exact Disk.present_of_isDir dir, by rw [leads]⟩
    rw [above]
    exact Path.join_name _ _

/-- **What the content check lets through is allowed**, whatever the path is. -/
theorem creates_of_content {path : String}
    (passes : h.ensureFsWriteContentPath path = .ok ()) : ∀ x ∈ h.creates (Path.ofString path), h.Allowed x := by
  intro x mem
  simp only [ensureFsWriteContentPath] at passes
  split at passes
  · next empty => exact absurd (List.isEmpty_iff.mp empty) limited.write
  · split at passes
    · next under =>
      rw [canonicalTarget_eq mem] at under
      rw [(creates_place mem).1]
      exact allowed_of_target limited under
    · cases passes

omit limited

/-! ## The guards -/

section Guards

variable (limited : h.policy.Limited) {path other : String}

include limited

theorem fronted_of_read (passes : (h.policy.allowFsRead.isEmpty || underAny h.policy.allowFsRead p) = true) :
    h.Fronted .read p := by
  have notEmpty : h.policy.allowFsRead.isEmpty = false := by simpa using limited.read
  show ∃ a ∈ h.policy.allowFsRead, a <+: p
  exact underAny_iff.mp (by simpa [notEmpty] using passes)

theorem fronted_of_walk (passes : h.ensureFsWalkPath path = .ok ()) : h.Fronted .read (Path.ofString path) := by
  simp only [ensureFsWalkPath] at passes
  split at passes
  · next under => exact fronted_of_read limited under
  · cases passes

theorem fronted_of_write (passes : h.ensureFsWritePath path = .ok ()) : h.Fronted .write (Path.ofString path) := by
  have notEmpty : h.policy.allowFsWrite.isEmpty = false := by simpa using limited.write
  simp only [ensureFsWritePath] at passes
  split at passes
  · next under =>
    show ∃ a ∈ h.policy.allowFsWrite, a <+: Path.ofString path
    exact underAny_iff.mp (by simpa [notEmpty] using under)
  · cases passes

theorem fronted_of_notRefused (passes : (!h.policy.allowFsRead.isEmpty && !underAny h.policy.allowFsRead p) = false) :
    h.Fronted .read p := by
  refine fronted_of_read limited ?_
  revert passes
  cases h.policy.allowFsRead.isEmpty <;> cases underAny h.policy.allowFsRead p <;> simp

variable {act : Path → List Access}

theorem walkGuarded_allowed
    (allowed : h.Fronted .read (Path.ofString path) → ∀ x ∈ act (Path.ofString path), h.Allowed x) :
    ∀ x ∈ Reply.accesses (h.walkGuarded path act), h.Allowed x := by
  simp only [walkGuarded]
  split
  · simp [Reply.accesses]
  · next passes => exact allowed (fronted_of_walk limited passes)

theorem writeGuarded_allowed {context : String}
    (allowed : h.Fronted .write (Path.ofString path) → ∀ x ∈ act (Path.ofString path), h.Allowed x) :
    ∀ x ∈ Reply.accesses (h.writeGuarded context path act), h.Allowed x := by
  simp only [writeGuarded]
  split
  · simp [Reply.accesses]
  · next passes => exact allowed (fronted_of_write limited passes)

theorem readContent_allowed (straight : (h.resolveReadPath path).Straight h.cwd) :
    ∀ x ∈ Reply.accesses (h.readContent path), h.Allowed x := by
  simp only [readContent, ensureFsReadContentPath]
  cases refused : !h.policy.allowFsRead.isEmpty && !underAny h.policy.allowFsRead (h.resolveReadPath path) with
  | true => simp [Reply.accesses, bind, Except.bind]
  | false => exact reads_allowed limited straight (fronted_of_notRefused limited refused)

theorem arrowRead_allowed {op : String} (straight : (h.resolveReadPath path).Straight h.cwd) :
    ∀ x ∈ Reply.accesses (h.arrowRead op path), h.Allowed x := by
  simp only [arrowRead]
  cases refused : !h.policy.allowFsRead.isEmpty && !underAny h.policy.allowFsRead (h.resolveReadPath path) with
  | true => simp [Reply.accesses]
  | false => exact reads_allowed limited straight (fronted_of_notRefused limited refused)

theorem writeContent_allowed : ∀ x ∈ Reply.accesses (h.writeContent path), h.Allowed x := by
  simp only [writeContent]
  cases passes : h.ensureFsWriteContentPath path with
  | error e => simp [Reply.accesses, bind, Except.bind]
  | ok => exact creates_of_content limited passes

theorem glob_allowed (straight : ∀ p ∈ h.expand path, p.Straight h.cwd) :
    ∀ x ∈ Reply.accesses (h.glob path), h.Allowed x := by
  intro x mem
  obtain ⟨p, shown, read⟩ := mem_flatMap.mp mem
  obtain ⟨found, passes⟩ := mem_filter.mp shown
  exact reads_allowed limited (straight p found) (fronted_of_read limited passes) x read

theorem copy_allowed (straight : (Path.ofString path).Straight h.cwd) (straight' : (Path.ofString other).Straight h.cwd) :
    ∀ x ∈ Reply.accesses (h.copy path other), h.Allowed x := by
  simp only [copy]
  split
  · simp [Reply.accesses]
  · next readable =>
    split
    · simp [Reply.accesses]
    · next writable =>
      intro x mem
      rcases mem_append.mp mem with mem | mem
      · exact reads_allowed limited straight (fronted_of_walk limited readable) x mem
      · split at mem
        · exact creates_allowed limited straight' (fronted_of_write limited writable) x mem
        · cases mem

theorem tlsFromPemFiles_allowed (straight : (h.resolveReadPath path).Straight h.cwd)
    (straight' : (h.resolveReadPath other).Straight h.cwd) :
    ∀ x ∈ Reply.accesses (h.tlsFromPemFiles path other), h.Allowed x := by
  simp only [tlsFromPemFiles]
  split
  · simp [Reply.accesses]
  · next cert =>
    split
    · simp [Reply.accesses]
    · next key =>
      intro x mem
      rcases mem_append.mp mem with mem | mem
      · exact reads_allowed limited straight (fronted_of_notRefused limited (Bool.eq_false_iff.mpr cert)) x mem
      · split at mem
        · exact reads_allowed limited straight' (fronted_of_notRefused limited (Bool.eq_false_iff.mpr key)) x mem
        · cases mem

end Guards

/-- An operation whose effects are not allowed touches nothing. -/
theorem confined_of_perform {args : Args}
    (allowed : ∀ x ∈ Reply.accesses (h.perform op args), h.Allowed x) : h.Confined op args := by
  intro x mem
  simp only [dispatch] at mem
  cases effects : (effectsOf op).forM h.ensureKindAllowed with
  | error e => simp [effects, Reply.accesses, bind, Except.bind] at mem
  | ok => exact allowed x (by simpa [effects, bind, Except.bind] using mem)

theorem confined_of_canonical (canonical : op.Canonical) (limited : h.policy.Limited) (args : Args) :
    h.Confined op args := by
  rcases canonical with rfl | rfl | rfl <;> exact confined_of_perform (writeContent_allowed limited)

/-- **A guarded operation on straight paths is confined.** -/
theorem confined_of_straight (guarded : op ≠ .netServeTls) {args : Args} (limited : h.policy.Limited)
    (straight : ∀ p ∈ h.paths op args, p.Straight h.cwd)
    (there : op = .fsMkdirP → ∀ a ∈ h.policy.allowFsWrite, h.disk.present (a.resolve h.cwd) = true) :
    h.Confined op args := by
  refine confined_of_perform ?_
  cases op with
  | fsExists | fsIsFile | fsIsDir | fsStat | fsListDir =>
    exact walkGuarded_allowed limited (reads_allowed limited (straight _ (by simp [paths])))
  | fsWalk => exact walkGuarded_allowed limited (walks_allowed limited (straight _ (by simp [paths])))
  | fsGlob => exact glob_allowed limited straight
  | fsReadToString | ioRead => exact readContent_allowed limited (straight _ (by simp [paths]))
  | fsWrite | fsAppend | ioWrite => exact writeContent_allowed limited
  | fsMkdirP =>
    have straight : (Path.ofString args.path).Straight h.cwd := straight _ (by simp [paths])
    show ∀ x ∈ Reply.accesses (h.writeGuarded "" args.path fun p => (h.createDirAll p.reverse).map (Access.mk .write)),
      h.Allowed x
    exact writeGuarded_allowed limited fun fronted => createDirAll_allowed limited straight fronted (there rfl)
  | fsRemove => exact writeGuarded_allowed limited (removes_allowed limited (straight _ (by simp [paths])))
  | fsCopy => exact copy_allowed limited (straight _ (by simp [paths])) (straight _ (by simp [paths]))
  | arrowReadCsv | arrowReadParquet | arrowReadParquetCols =>
    exact arrowRead_allowed limited (straight _ (by simp [paths]))
  | arrowWriteParquet | arrowWriteCsv =>
    exact writeGuarded_allowed limited (creates_allowed limited (straight _ (by simp [paths])))
  | tlsFromPemFiles =>
    exact tlsFromPemFiles_allowed limited (straight _ (by simp [paths])) (straight _ (by simp [paths]))
  | netServeTls => exact absurd rfl guarded

/-! ## The static check -/

theorem scopeAllowed_iff_walk (limited : h.policy.Limited) (path : String) :
    h.policy.scopeAllowed .read path = true ↔ h.ensureFsWalkPath path = .ok () := by
  have notEmpty : h.policy.allowFsRead.isEmpty = false := by simpa using limited.read
  show underAny h.policy.allowFsRead (Path.ofString path) = true ↔ _
  simp [ensureFsWalkPath, notEmpty]

theorem scopeAllowed_iff_readContent (limited : h.policy.Limited) (atHome : h.readRoot = none) (path : String) :
    h.policy.scopeAllowed .read path = true ↔ ∃ p, h.ensureFsReadContentPath path = .ok p := by
  have notEmpty : h.policy.allowFsRead.isEmpty = false := by simpa using limited.read
  show underAny h.policy.allowFsRead (Path.ofString path) = true ↔ _
  cases under : underAny h.policy.allowFsRead (Path.ofString path) <;>
    simp [ensureFsReadContentPath, resolveReadPath, atHome, notEmpty, under]

theorem scopeAllowed_iff_write (limited : h.policy.Limited) (path : String) :
    h.policy.scopeAllowed .write path = true ↔ h.ensureFsWritePath path = .ok () := by
  have notEmpty : h.policy.allowFsWrite.isEmpty = false := by simpa using limited.write
  show underAny h.policy.allowFsWrite (Path.ofString path) = true ↔ _
  simp [ensureFsWritePath, notEmpty]

theorem canonicalTarget_ofLocation (l : Location) : h.canonicalTarget (Path.ofLocation l) = Path.ofLocation l := by
  have raw : (Path.ofLocation h.cwd).join (Path.ofLocation l) = Path.ofLocation l := rfl
  simp only [canonicalTarget, raw]
  split
  · next found =>
    obtain ⟨-, -, rfl⟩ := canonicalize_eq_some.mp found
    simp
  · next missing =>
    rcases eq_nil_or_concat' l with rfl | ⟨l, name, rfl⟩
    · -- the root is always there
      have root : h.disk.present [] = true := Disk.present_of_isDir (by simpa [Disk.isDir] using h.disk.rooted)
      rw [canonicalize_eq_some.mpr ⟨by simp [Path.ofLocation], by simpa using root, rfl⟩] at missing
      cases missing
    · have concat : Path.ofLocation (l ++ [name]) = Path.ofLocation l ++ [Component.normal name] := by simp [Path.ofLocation]
      rw [concat, Path.parent_concat, Path.fileName_concat]
      simp only [bind_some, elim_some]
      split
      · next found =>
        obtain ⟨-, -, rfl⟩ := canonicalize_eq_some.mp found
        rw [Path.resolve_ofLocation, Path.join_name, concat]
      · rfl

theorem scopeAllowed_iff_writeContent (limited : h.policy.Limited) {path : String}
    (direct : (Path.ofString path).Direct) (roots : ∀ a ∈ h.policy.allowFsWrite, a.Direct) :
    h.policy.scopeAllowed .write path = true ↔ h.ensureFsWriteContentPath path = .ok () := by
  have notEmpty : h.policy.allowFsWrite.isEmpty = false := by simpa using limited.write
  obtain ⟨l, eq⟩ := direct
  have itself : ∀ a ∈ h.policy.allowFsWrite, (h.canonicalize a).getD a = a := by
    intro a mem
    obtain ⟨l, rfl⟩ := roots a mem
    cases found : h.canonicalize (Path.ofLocation l) with
    | none => rfl
    | some q =>
      obtain ⟨-, -, rfl⟩ := canonicalize_eq_some.mp found
      simp
  have same : (h.policy.allowFsWrite.map fun a => (h.canonicalize a).getD a) = h.policy.allowFsWrite :=
    (map_congr_left itself).trans (List.map_id _)
  show underAny h.policy.allowFsWrite (Path.ofString path) = true ↔ _
  simp [ensureFsWriteContentPath, notEmpty, same, eq, canonicalTarget_ofLocation]

end Handler

/-! ## Which operations are confined -/

/-- `/data` is allowed, `/etc` is not. -/
def smallDisk : Disk where
  entries := [([], .dir), (["data"], .dir), (["etc"], .dir), (["etc", "passwd"], .file)]
  rooted := by decide
  grounded := by
    intro l kind mem
    simp only [mem_cons, Prod.mk.injEq, not_mem_nil, or_false] at mem
    rcases mem with ⟨rfl, rfl⟩ | ⟨rfl, rfl⟩ | ⟨rfl, rfl⟩ | ⟨rfl, rfl⟩ <;> decide
  plain := by
    intro l mem
    simp only [mem_cons, Prod.mk.injEq, not_mem_nil, or_false, reduceCtorEq, and_false, false_or] at mem
    obtain ⟨rfl, -⟩ := mem
    decide

def dataHandler : Handler where
  policy := ⟨["fs_walk", "fs_read", "fs_write", "io", "net"], [Path.ofString "/data"], [Path.ofString "/data"]⟩
  cwd := []
  disk := smallDisk
  expand pattern := [Path.ofString pattern]
  readRoot := none
  hasProgram := true

/-- Arguments that look as if they were below `/data`. -/
def detour : FsOp → Args
  | .fsMkdirP => ⟨"/data/../etc/new", "", 0⟩
  | .fsCopy => ⟨"/data/../etc/passwd", "/data/copy", 0⟩
  | _ => ⟨"/data/../etc/passwd", "/data/../etc/passwd", 443⟩

theorem dataHandler_limited : dataHandler.policy.Limited := by
  refine ⟨by decide, by decide, fun kind => ?_⟩
  cases kind <;> decide

theorem not_confined_detour (notCanonical : ¬ op.Canonical) : ¬ dataHandler.Confined op (detour op) := by
  cases op with
  | fsWrite | fsAppend | ioWrite => simp [FsOp.Canonical] at notCanonical
  | _ => decide +kernel

end LexLang.Runtime
