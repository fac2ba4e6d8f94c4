/-
# LexLang.Loader.Requests — `load_program` and `load_package`

The two ways to ask for a merged program. The program they give keeps the scopes of the files
exactly if these are hygienic (`request_preserves_iff`).
-/
import LexLang.Loader.Flattening

namespace LexLang.Loader

open LexLang.Syntax

inductive Request
  /-- `load_program`, and `load_program_with_root`. -/
  | program (entry : String) (root : Option Canonical)
  /-- `load_package`. -/
  | package (entries : List String) (root : Canonical) (namespaceName : String) (inlinePackages : Bool)

namespace Request

def inlinePackages : Request → Bool
  | .program _ _ => true
  | .package _ _ _ inlinePackages => inlinePackages

def run (disk : Disk) : Request → Except LoadError (List Merged × LoaderState)
  | .program entry root => loadRooted disk entry root
  | .package entries root namespaceName inlinePackages => loadPackage disk entries root namespaceName inlinePackages

def files (disk : Disk) : Request → Except FileError (List Canonical)
  | .program entry _ => [entry].mapM disk.canonicalize
  | .package entries _ _ _ => entries.mapM disk.canonicalize

theorem flattened {disk : Disk} {request : Request} {merged : List Merged} {st : LoaderState}
    (hrun : request.run disk = .ok (merged, st)) :
    ∃ entries, request.files disk = .ok entries ∧ Flattened disk request.inlinePackages entries merged st := by
  cases request with
  | program entry root =>
    obtain ⟨c, hc, hflat⟩ := loadRooted_flattened hrun
    refine ⟨[c], ?_, hflat⟩
    rw [files, List.mapM_cons, hc]
    rfl
  | package entries root namespaceName inlinePackages => exact loadPackage_flattened hrun

end Request

/-! ## Scoping -/

/-- **The merged program keeps the scopes of the files exactly if the files are hygienic.** -/
theorem request_preserves_iff (disk : Disk) (request : Request) {merged : List Merged} {st : LoaderState}
    (hrun : request.run disk = .ok (merged, st)) : ∃ entries, request.files disk = .ok entries ∧
      (Preserves disk request.inlinePackages entries merged ↔ Hygienic disk request.inlinePackages st) := by
  obtain ⟨entries, hentries, hflat⟩ := Request.flattened hrun
  exact ⟨entries, hentries, hflat.preserves_iff⟩

/-! ## Two files -/

/-- An entry and the file it imports. -/
def twoFiles (main lib : SourceFile) : Disk where
  files := [["main.lex"], ["lib.lex"]]
  parse c := if c = ["main.lex"] then .ok main else if c = ["lib.lex"] then .ok lib else .error (.io c)
  mem_files c file h := by
    split at h
    · simp_all
    · split at h
      · simp_all
      · simp at h
  canonicalize entry := .ok [entry]
  resolveImport c reference := if reference = "./lib" then .ok ["lib.lex"] else .error (.notFound c reference)
  resolvePackageImport _ pkg _ := .error (.package pkg)
  packageRoot _ := none
  hash8 _ := "1f2e3d4c"

/-- `import "./lib" as m`, `fn main() -> Int { m.same(1) }`. -/
def mainFile : SourceFile where
  program :=
    ⟨[.importDecl ⟨"./lib", "m"⟩,
      .fnDecl ⟨"main", [], [], [], none, .named "Int" [],
        .mk [] (.call (.field (.var "m") "same") [.lit (.int 1)]), [], []⟩], []⟩
  parsed := ⟨by decide +kernel, by decide +kernel, by decide +kernel⟩

/-- `fn same(x :: Int) -> Int { x }`. -/
def plainFile : SourceFile where
  program :=
    ⟨[.fnDecl ⟨"same", [], [("x", .named "Int" [])], [], none, .named "Int" [], .mk [] (.var "x"), [], []⟩], []⟩
  parsed := ⟨by decide +kernel, by decide +kernel, by decide +kernel⟩

/-- `type T = Int`, `fn same[T](x :: T) -> T { x }`. -/
def shadowingFile : SourceFile where
  program :=
    ⟨[.typeDecl ⟨"T", [], .named "Int" [], []⟩,
      .fnDecl ⟨"same", ["T"], [("x", .named "T" [])], [], none, .named "T" [], .mk [] (.var "x"), [], []⟩], []⟩
  parsed := ⟨by decide +kernel, by decide +kernel, by decide +kernel⟩

/-- Whether the occurrences denote what they do in the files. -/
def sameTargets (disk : Disk) (inlinePackages : Bool) (merged : List Merged) : Bool :=
  (declarationsOf merged).all fun e =>
    match disk.parse e.file with
    | .ok source =>
      (itemOccurrences e.item).map (mergedScope merged).resolve =
        (itemOccurrences e.source).map (fileScope disk inlinePackages e.file source.program).resolve
    | .error _ => true

theorem Preserves.sameTargets {disk : Disk} {inlinePackages : Bool} {entries : List Canonical}
    {merged : List Merged} (h : Preserves disk inlinePackages entries merged) :
    sameTargets disk inlinePackages merged = true := by
  apply List.all_eq_true.mpr
  intro e he
  split
  · next source hparse => exact decide_eq_true (h.denotes e he source hparse)
  · rfl

theorem request_preserves_iff_plain : ∃ merged st,
    (Request.program "main.lex" none).run (twoFiles mainFile plainFile) = .ok (merged, st) ∧
      ∃ entries, (Request.program "main.lex" none).files (twoFiles mainFile plainFile) = .ok entries ∧
        (Preserves (twoFiles mainFile plainFile) true entries merged ↔
          Hygienic (twoFiles mainFile plainFile) true st) := by
  have hends : ((Request.program "main.lex" none).run (twoFiles mainFile plainFile)).isOk = true := by
    decide +kernel
  cases hrun : (Request.program "main.lex" none).run (twoFiles mainFile plainFile) with
  | error e => simp [hrun, Except.isOk, Except.toBool] at hends
  | ok result => exact ⟨result.1, result.2, rfl, request_preserves_iff _ _ hrun⟩

/-- **A type parameter is taken for a type**: in the merged program `same` is not generic. -/
theorem type_parameter_captured : ¬∀ (disk : Disk) (request : Request) (merged : List Merged) (st : LoaderState),
    request.run disk = .ok (merged, st) →
      ∃ entries, request.files disk = .ok entries ∧ Preserves disk request.inlinePackages entries merged := by
  intro h
  have hcheck : ((Request.program "main.lex" none).run (twoFiles mainFile shadowingFile)).toOption.any
      (fun result => !sameTargets (twoFiles mainFile shadowingFile) true result.1) = true := by
    decide +kernel
  cases hrun : (Request.program "main.lex" none).run (twoFiles mainFile shadowingFile) with
  | error e => simp [hrun, Except.toOption] at hcheck
  | ok result =>
    obtain ⟨entries, _, hpreserves⟩ := h _ _ result.1 result.2 hrun
    have hsame : sameTargets (twoFiles mainFile shadowingFile) true result.1 = true := hpreserves.sameTargets
    simp [hrun, Except.toOption, hsame] at hcheck

end LexLang.Loader
