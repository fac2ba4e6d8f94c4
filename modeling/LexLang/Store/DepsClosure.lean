/-
# LexLang.Store.DepsClosure — what a reference resolves to, without caches

The uncached specification of dependency resolution: a module has a surface when every package that its head imports
has one, through the lock of the head. It is a finite derivation, so a head that depends on itself has none.
-/
import LexLang.Store.Deps

namespace LexLang.Store.Deps

open Relation (TransGen ReflTransGen)
open Option

/-! ## References and what they lead to -/

/-- The head that a package is pinned to in a store that opens. -/
def Registry.target (g : Registry) (lock : Option LockFile) (package : String) : Option Node :=
  match lock.bind fun l => l.entry package with
  | none => none
  | some entry =>
    match entry.headOp, g.open_ entry with
    | some head, .ok id => some (id, head)
    | _, _ => none

def Registry.importsOf (g : Registry) (node : Node) : List String :=
  match g.flatImports node with
  | .ok refs => refs
  | .error _ => []

/-- Under the lock, one of the references is to the module of the package, which leads to the head. -/
def Registry.Needs (g : Registry) (lock : Option LockFile) (refs : List String) (package module : String)
    (node : Node) : Prop :=
  ∃ r ∈ refs, splitPackageImport r = some (package, module) ∧ g.target lock package = some node

/-- The head imports the module of the package, under its own lock. -/
def Registry.Uses (g : Registry) (x : Node) (package module : String) (y : Node) : Prop :=
  g.Needs (g.committedLock x) (g.importsOf x) package module y

def Registry.Leads (g : Registry) (x y : Node) : Prop := ∃ package module, g.Uses x package module y

/-! ## Surfaces -/

/-- The surfaces that the references have go into the maps. -/
def gather (answer : String → Option ModuleSurface) : List String → ResolvedDeps → ResolvedDeps
  | [], out => out
  | r :: rest, out =>
    gather answer rest
      (match answer r with
        | some s => out.record r s
        | none => out)

/-- **The module of the head has the surface**: the head can be read, what it imports is pinned and has a surface in
turn, and with these the module is well typed. -/
inductive Has (g : Registry) : Node → String → String → ModuleSurface → Prop
  | mk {node : Node} {package module : String} {refs : List String} {s : ModuleSurface} (at_ : String → Node)
      (surfaceOf : String → ModuleSurface) (read : g.flatImports node = .ok refs)
      (pinned : ∀ r ∈ refs, ∀ p m, splitPackageImport r = some (p, m) →
        g.target (g.committedLock node) p = some (at_ r))
      (has : ∀ r ∈ refs, ∀ p m, splitPackageImport r = some (p, m) → Has g (at_ r) p m (surfaceOf r))
      (made : g.moduleSurface node package module
        (gather (fun r => (splitPackageImport r).map fun _ => surfaceOf r) refs .empty) = .ok s) :
      Has g node package module s

/-- The reference resolves to the surface, under the lock. -/
def Yields (g : Registry) (lock : Option LockFile) (reference : String) (s : ModuleSurface) : Prop :=
  ∃ package module node, splitPackageImport reference = some (package, module) ∧
    g.target lock package = some node ∧ Has g node package module s

variable {g : Registry}

theorem gather_congr {answer answer' : String → Option ModuleSurface} {refs : List String}
    (same : ∀ r ∈ refs, answer r = answer' r) (out : ResolvedDeps) :
    gather answer refs out = gather answer' refs out := by
  induction refs generalizing out with
  | nil => rfl
  | cons r rest ih =>
    rw [List.forall_mem_cons] at same
    simp only [gather, same.1]
    exact ih same.2 _

variable {node : Node} {package module : String} {s : ModuleSurface}

/-- **A module has one surface at most.** -/
theorem Has.unique {s' : ModuleSurface} (h : Has g node package module s)
    (h' : Has g node package module s') : s = s' := by
  induction h generalizing s' with
  | @mk _ _ _ refs _ at_ surfaceOf read pinned has made ih =>
    obtain ⟨at', surfaceOf', read', pinned', has', made'⟩ := h'
    obtain rfl := Except.ok.inj (read.symm.trans read')
    have same : ∀ r ∈ refs, ((splitPackageImport r).map fun _ => surfaceOf r) =
        (splitPackageImport r).map fun _ => surfaceOf' r := by
      intro r mem
      cases found : splitPackageImport r with
      | none => rfl
      | some pm =>
        obtain ⟨p, m⟩ := pm
        have there : at_ r = at' r := some.inj ((pinned r mem p m found).symm.trans (pinned' r mem p m found))
        exact congrArg some (ih r mem p m found (there ▸ has' r mem p m found))
    rw [gather_congr same, made'] at made
    exact (Except.ok.inj made).symm

variable {lock : Option LockFile} {r : String}

theorem Yields.unique {s' : ModuleSurface} (h : Yields g lock r s) (h' : Yields g lock r s') : s = s' := by
  obtain ⟨p, m, n, split, target, has⟩ := h
  obtain ⟨p', m', n', split', target', has'⟩ := h'
  obtain ⟨rfl, rfl⟩ := Prod.mk.inj (some.inj (split.symm.trans split'))
  obtain rfl := some.inj (target.symm.trans target')
  exact has.unique has'

/-- The surface that the reference resolves to, if it does. -/
noncomputable def answer (g : Registry) (lock : Option LockFile) (reference : String) : Option ModuleSurface := by
  classical exact if h : ∃ s, Yields g lock reference s then some h.choose else none

theorem answer_eq_some : answer g lock r = some s ↔ Yields g lock r s := by
  unfold answer
  split_ifs with h
  · simp only [some.injEq]
    exact ⟨fun eq => eq ▸ h.choose_spec, fun yields => h.choose_spec.unique yields⟩
  · simp only [false_iff]
    exact fun yields => h ⟨s, yields⟩

theorem answer_isSome : (answer g lock r).isSome ↔ ∃ s, Yields g lock r s := by
  simp [isSome_iff_exists, answer_eq_some]

theorem answer_eq_none : answer g lock r = none ↔ ∀ s, ¬ Yields g lock r s := by
  simp [eq_none_iff_forall_ne_some, answer_eq_some]

/-- What the head imports resolves, to these dependencies. -/
def Resolved (g : Registry) (node : Node) (d : ResolvedDeps) : Prop :=
  ∃ refs, g.flatImports node = .ok refs ∧
    (∀ r ∈ refs, (splitPackageImport r).isSome → (answer g (g.committedLock node) r).isSome) ∧
    d = gather (answer g (g.committedLock node)) refs .empty

theorem Resolved.unique {d d' : ResolvedDeps} (h : Resolved g node d) (h' : Resolved g node d') : d = d' := by
  obtain ⟨refs, read, -, rfl⟩ := h
  obtain ⟨refs', read', -, rfl⟩ := h'
  obtain rfl := Except.ok.inj (read.symm.trans read')
  rfl

theorem answer_of_split_none (h : splitPackageImport r = none) : answer g lock r = none := by
  rw [answer_eq_none]
  rintro s ⟨p, m, n, split, -⟩
  rw [h] at split
  cases split

/-- A module has a surface when the dependencies of its head resolve and it is well typed with them. -/
theorem has_iff :
    Has g node package module s ↔ ∃ d, Resolved g node d ∧ g.moduleSurface node package module d = .ok s := by
  constructor
  · rintro (@⟨_, _, _, refs, _, at_, surfaceOf, read, pinned, has, made⟩)
    have yields : ∀ r ∈ refs, ∀ p m, splitPackageImport r = some (p, m) →
        answer g (g.committedLock node) r = some (surfaceOf r) := fun r mem p m split =>
      answer_eq_some.mpr ⟨p, m, at_ r, split, pinned r mem p m split, has r mem p m split⟩
    refine ⟨_, ⟨_, read, fun r mem found => ?_, gather_congr (fun r mem => ?_) _⟩, made⟩
    · obtain ⟨⟨p, m⟩, split⟩ := isSome_iff_exists.mp found
      simp [yields r mem p m split]
    · cases split : splitPackageImport r with
      | none => rw [answer_of_split_none split]; rfl
      | some pm => exact (yields r mem pm.1 pm.2 split).symm
  · rintro ⟨d, ⟨refs, read, all, rfl⟩, made⟩
    -- every package reference has a head and a surface there
    have each : ∀ r, ∃ n s, r ∈ refs → ∀ p m, splitPackageImport r = some (p, m) →
        g.target (g.committedLock node) p = some n ∧ Has g n p m s ∧
          answer g (g.committedLock node) r = some s := by
      intro r
      by_cases known : r ∈ refs ∧ (splitPackageImport r).isSome
      · obtain ⟨s, yields⟩ := isSome_iff_exists.mp (all r known.1 known.2)
        obtain ⟨p, m, n, split, target, has⟩ := answer_eq_some.mp yields
        refine ⟨n, s, fun _ p' m' split' => ?_⟩
        obtain ⟨rfl, rfl⟩ := Prod.mk.inj (some.inj (split.symm.trans split'))
        exact ⟨target, has, yields⟩
      · refine ⟨("", ""), s, fun mem p m split => absurd ⟨mem, ?_⟩ known⟩
        simp [split]
    choose at_ surfaceOf spec using each
    refine .mk at_ surfaceOf read (fun r mem p m split => (spec r mem p m split).1)
      (fun r mem p m split => (spec r mem p m split).2.1) (Eq.trans (congrArg _ (gather_congr (fun r mem => ?_) _)) made)
    cases split : splitPackageImport r with
    | none => rw [answer_of_split_none split]; rfl
    | some pm => exact (spec r mem pm.1 pm.2 split).2.2.symm

/-! ## Cycles -/

/-- A head whose modules have a surface does not lead back to itself. -/
theorem Has.acyclic (h : Has g node package module s) : ¬ TransGen g.Leads node node := by
  have acc : Acc (fun y x => g.Leads x y) node := by
    induction h with
    | mk at_ surfaceOf read pinned has made ih =>
      refine Acc.intro _ fun y leads => ?_
      obtain ⟨p, m, r, mem, split, target⟩ := leads
      simp only [Registry.importsOf, read] at mem
      obtain rfl := some.inj ((pinned r mem p m split).symm.trans target)
      exact ih r mem p m split
  have below : Acc (TransGen fun y x => g.Leads x y) node := acc.transGen
  clear h acc
  induction below with
  | intro x _ ih => exact fun around => ih x (Relation.transGen_swap.mpr around) around

/-! ## The traversed closure -/

/-- The heads that the references lead to, and that these lead to in turn. -/
inductive Reached (g : Registry) (lock : Option LockFile) (refs : List String) : Node → Prop
  | root {package module : String} {node : Node} : g.Needs lock refs package module node → Reached g lock refs node
  | step {x y : Node} : Reached g lock refs x → g.Leads x y → Reached g lock refs y

/-- Somewhere in the closure, the module of the head is referred to by this name of its package. -/
def Referred (g : Registry) (lock : Option LockFile) (refs : List String) (node : Node) (package module : String) :
    Prop :=
  g.Needs lock refs package module node ∨ ∃ x, Reached g lock refs x ∧ g.Uses x package module node

/-- Under the lock, one of the references is to the package, and it is pinned to the head. -/
def PinsAt (lock : Option LockFile) (refs : List String) (package head : String) : Prop :=
  ∃ r ∈ refs, ∃ module entry, splitPackageImport r = some (package, module) ∧
    (lock.bind fun l => l.entry package) = some entry ∧ entry.headOp = some head

/-- Somewhere in the closure, the package is pinned to the head. -/
def Pinned (g : Registry) (lock : Option LockFile) (refs : List String) (package head : String) : Prop :=
  PinsAt lock refs package head ∨
    ∃ x, Reached g lock refs x ∧ PinsAt (g.committedLock x) (g.importsOf x) package head

/-- A module of a head that is referred to by two names of its package has the same surface by both. -/
def Agreed (g : Registry) (lock : Option LockFile) (refs : List String) : Prop :=
  ∀ node module package package', Referred g lock refs node package module →
    Referred g lock refs node package' module → ∀ s, Has g node package module s → Has g node package' module s

theorem Referred.reached {refs : List String}
    (h : Referred g lock refs node package module) : Reached g lock refs node := by
  rcases h with needs | ⟨x, reached, uses⟩
  · exact .root needs
  · exact .step reached ⟨_, _, uses⟩

end LexLang.Store.Deps
