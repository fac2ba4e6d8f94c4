/-
# LexLang.Store.DepsExact — the walk with its caches and its specification

The invariant of the walk: what is cached is what the specification says, the heads whose dependencies are cached are
closed up to the current path, and the pins are those of the closure. The path leads to the head at hand, so a head on
the path is one that depends on itself.
-/
import LexLang.Store.DepsClosure
import Mathlib.Data.Set.Card

namespace LexLang.Store.Deps

open Relation (TransGen ReflTransGen)
open LexLang.Types (Ty)
open Finset Function List Option

variable {g : Registry} {lock : Option LockFile} {refs : List String}

/-! ## The invariant -/

/-- The result is the one of the specification. -/
def SurfaceRight (g : Registry) (node : Node) (package module : String) : Except String ModuleSurface → Prop
  | .ok s => Has g node package module s
  | .error _ => ∀ s, ¬ Has g node package module s

variable {node : Node}

theorem SurfaceRight.rename {package package' module : String} {r : Except String ModuleSurface}
    (right : SurfaceRight g node package module r)
    (to_ : ∀ s, Has g node package module s → Has g node package' module s)
    (back : ∀ s, Has g node package' module s → Has g node package module s) :
    SurfaceRight g node package' module r := by
  cases r with
  | ok s => exact to_ s right
  | error e => exact fun s has => right s (back s has)

def DepsRight (g : Registry) (node : Node) (d : ResolvedDeps) : Prop :=
  if d.diagnostics = [] then Resolved g node d else ∀ d', ¬ Resolved g node d'

structure Inv (g : Registry) (lock : Option LockFile) (refs : List String) (walk : Walk) : Prop where
  known : ∀ node module r, walk.surfaces (node, module) = some r → (walk.deps node).isSome
  closed : ∀ node, (walk.deps node).isSome → ∀ y, g.Leads node y → (walk.deps y).isSome ∨ y ∈ walk.visiting
  pins : ∀ node, (walk.deps node).isSome → ∀ p h, PinsAt (g.committedLock node) (g.importsOf node) p h →
    (p, h) ∈ walk.pins
  sound : ∀ p h, (p, h) ∈ walk.pins → Pinned g lock refs p h
  surfaces : Agreed g lock refs → ∀ node module r, walk.surfaces (node, module) = some r →
    ∀ package, Referred g lock refs node package module → SurfaceRight g node package module r
  deps : Agreed g lock refs → ∀ node d, walk.deps node = some d → DepsRight g node d

/-- A call adds to the caches and to the pins, and it leaves the path as it was. -/
structure Grows (walk walk' : Walk) : Prop where
  visiting : walk'.visiting = walk.visiting
  deps : ∀ node, (walk.deps node).isSome → (walk'.deps node).isSome
  pins : walk.pins ⊆ walk'.pins

theorem Grows.refl (walk : Walk) : Grows walk walk := ⟨rfl, fun _ h => h, fun _ h => h⟩

theorem Grows.trans {a b c : Walk} (h : Grows a b) (h' : Grows b c) : Grows a c :=
  ⟨h'.visiting.trans h.visiting, fun node known => h'.deps node (h.deps node known), fun _ mem => h'.pins (h.pins mem)⟩

/-- The head is cached or it is on the path. -/
def Walk.Met (walk : Walk) (node : Node) : Prop := (walk.deps node).isSome ∨ node ∈ walk.visiting

variable {walk walk' : Walk}

theorem Grows.met (h : Grows walk walk') (met : walk.Met node) : walk'.Met node := by
  rcases met with known | path
  · exact .inl (h.deps node known)
  · exact .inr (h.visiting ▸ path)

/-- What a lookup of surfaces is to do, for a reference of the closure whose head the path leads to. -/
def Looks (g : Registry) (lock : Option LockFile) (refs : List String) (look : Lookup) : Prop :=
  ∀ walk entry head package module result walk', Inv g lock refs walk →
    (∀ id, g.open_ entry = .ok id → Referred g lock refs (id, head) package module ∧
      ∀ x ∈ walk.visiting, TransGen g.Leads x (id, head)) →
    look walk entry head package module = some (result, walk') →
    Inv g lock refs walk' ∧ Grows walk walk' ∧
      match g.open_ entry with
      | .ok id => walk'.Met (id, head) ∧ (Agreed g lock refs → SurfaceRight g (id, head) package module result)
      | .error e => result = .error e

/-! ## The loop over references -/

/-- The maps, without the diagnostics. -/
def ResolvedDeps.maps (out : ResolvedDeps) : ResolvedDeps := { out with diagnostics := [] }

/-- The walk went through the references of one lock. -/
structure Went (g : Registry) (lock : Option LockFile) (refs : List String) (at_ : Option LockFile)
    (done : List String) (walk walk' : Walk) (out out' : ResolvedDeps) : Prop where
  inv : Inv g lock refs walk'
  grows : Grows walk walk'
  met : ∀ p m y, g.Needs at_ done p m y → walk'.Met y
  pinned : ∀ p h, PinsAt at_ done p h → (p, h) ∈ walk'.pins
  maps : Agreed g lock refs → out'.maps = gather (answer g at_) done out.maps
  diagnostics : Agreed g lock refs → (out'.diagnostics = [] ↔
    out.diagnostics = [] ∧ ∀ r ∈ done, (splitPackageImport r).isSome → (answer g at_ r).isSome)

variable {r p m : String} {at_ : Option LockFile}

variable (split : splitPackageImport r = some (p, m))
include split

theorem needs_single {p' m' : String} {y : Node} :
    g.Needs at_ [r] p' m' y ↔ p' = p ∧ m' = m ∧ g.target at_ p = some y := by
  simp only [Registry.Needs, List.mem_singleton, exists_eq_left, split, some.injEq, Prod.mk.injEq]
  constructor
  · rintro ⟨⟨rfl, rfl⟩, target⟩
    exact ⟨rfl, rfl, target⟩
  · rintro ⟨rfl, rfl, target⟩
    exact ⟨⟨rfl, rfl⟩, target⟩

theorem pinsAt_single {p' h : String} : PinsAt at_ [r] p' h ↔
      p' = p ∧ ∃ entry, (at_.bind fun l => l.entry p) = some entry ∧ entry.headOp = some h := by
  simp only [PinsAt, List.mem_singleton, exists_eq_left, split, some.injEq, Prod.mk.injEq]
  constructor
  · rintro ⟨module, entry, ⟨rfl, -⟩, found, headed⟩
    exact ⟨rfl, entry, found, headed⟩
  · rintro ⟨rfl, entry, found, headed⟩
    exact ⟨m, entry, ⟨rfl, rfl⟩, found, headed⟩

theorem answer_of_target_none (none_ : g.target at_ p = none) : answer g at_ r = none := by
  rw [answer_eq_none]
  rintro s ⟨p', m', n, split', target, -⟩
  obtain ⟨rfl, rfl⟩ := Prod.mk.inj (some.inj (split.symm.trans split'))
  rw [none_] at target
  cases target

theorem answer_of_target {n : Node} {result : Except String ModuleSurface} (target : g.target at_ p = some n)
    (right : SurfaceRight g n p m result) : answer g at_ r = result.toOption := by
  cases result with
  | ok s => exact answer_eq_some.mpr ⟨p, m, n, split, target, right⟩
  | error e =>
    refine answer_eq_none.mpr ?_
    rintro s ⟨p', m', n', split', target', has⟩
    obtain ⟨rfl, rfl⟩ := Prod.mk.inj (some.inj (split.symm.trans split'))
    obtain rfl := some.inj (target.symm.trans target')
    exact right s has

omit split

variable {out out' : ResolvedDeps}

theorem went_single
    (inv : Inv g lock refs walk') (grows : Grows walk walk') (split : splitPackageImport r = some (p, m))
    (met : ∀ y, g.target at_ p = some y → walk'.Met y)
    (pinned : ∀ entry h, (at_.bind fun l => l.entry p) = some entry → entry.headOp = some h → (p, h) ∈ walk'.pins)
    (result : Agreed g lock refs → (∃ s, answer g at_ r = some s ∧ out' = out.record r s) ∨
      answer g at_ r = none ∧ ∃ e, out' = out.report e) : Went g lock refs at_ [r] walk walk' out out' where
  inv := inv
  grows := grows
  met p' m' y needs := met y ((needs_single split).mp needs).2.2
  pinned p' h pinsAt := by
    obtain ⟨rfl, entry, found, headed⟩ := (pinsAt_single split).mp pinsAt
    exact pinned entry h found headed
  maps agreed := by
    rcases result agreed with ⟨s, eq, rfl⟩ | ⟨eq, e, rfl⟩ <;> simp only [gather, eq] <;> rfl
  diagnostics agreed := by
    rcases result agreed with ⟨s, eq, rfl⟩ | ⟨eq, e, rfl⟩
    · simp [ResolvedDeps.record, eq]
    · simp [ResolvedDeps.report, eq, split]

variable {look : Lookup}

theorem resolveRef_went (looks : Looks g lock refs look) (inv : Inv g lock refs walk)
    (place : ∀ p m y, g.Needs at_ [r] p m y → Referred g lock refs y p m ∧ ∀ x ∈ walk.visiting, TransGen g.Leads x y)
    (pins : ∀ p h, PinsAt at_ [r] p h → Pinned g lock refs p h)
    (run : resolveRef look at_ walk out r = some (out', walk')) : Went g lock refs at_ [r] walk walk' out out' := by
  unfold resolveRef at run
  cases split : splitPackageImport r with
  | none =>
    simp only [split] at run
    obtain ⟨rfl, rfl⟩ := run
    refine ⟨inv, .refl _, fun p m y needs => ?_, fun p h pinned => ?_, fun _ => ?_, fun _ => ?_⟩
    · simp [Registry.Needs, split] at needs
    · simp [PinsAt, split] at pinned
    · simp [gather, answer_of_split_none split]
    · simp [split]
  | some pm =>
    obtain ⟨pkg, module⟩ := pm
    simp only [split] at run
    cases found : at_.bind fun l => l.entry pkg with
    | none =>
      simp only [found] at run
      obtain ⟨rfl, rfl⟩ := run
      have target : g.target at_ pkg = none := by simp [Registry.target, found]
      exact went_single inv (.refl _) split (by simp [target]) (by simp [found])
        fun _ => .inr ⟨answer_of_target_none split target, _, rfl⟩
    | some entry =>
      simp only [found] at run
      cases headed : entry.headOp with
      | none =>
        simp only [headed] at run
        obtain ⟨rfl, rfl⟩ := run
        have target : g.target at_ pkg = none := by simp [Registry.target, found, headed]
        refine went_single inv (.refl _) split (by simp [target]) (fun e h found' headed' => ?_)
          fun _ => .inr ⟨answer_of_target_none split target, _, rfl⟩
        obtain rfl := some.inj (found.symm.trans found')
        rw [headed] at headed'
        cases headed'
      | some head =>
        simp only [headed, bind_eq_bind, bind_eq_some_iff, Prod.exists] at run
        obtain ⟨result, walk₁, looked, run⟩ := run
        have here : ∀ id, g.open_ entry = .ok id → g.target at_ pkg = some (id, head) := fun id opened => by
          simp [Registry.target, found, headed, opened]
        -- the pin is noted before the surface is looked up
        have noted : Inv g lock refs { walk with pins := insert (pkg, head) walk.pins } :=
          { inv with
            pins := fun node known p h pinsAt => Finset.mem_insert_of_mem (inv.pins node known p h pinsAt)
            sound := fun p h mem => by
              rcases mem_insert.mp mem with eq | mem
              · obtain ⟨rfl, rfl⟩ := Prod.mk.inj eq
                exact pins _ _ ((pinsAt_single split).mpr ⟨rfl, entry, found, headed⟩)
              · exact inv.sound p h mem }
        obtain ⟨inv', grows, after⟩ := looks _ entry head pkg module result walk₁ noted
          (fun id opened => place pkg module _ ((needs_single split).mpr ⟨rfl, rfl, here id opened⟩)) looked
        have first : Grows walk { walk with pins := insert (pkg, head) walk.pins } :=
          ⟨rfl, fun _ known => known, Finset.subset_insert _ _⟩
        have pinned : ∀ e h, (at_.bind fun l => l.entry pkg) = some e → e.headOp = some h →
            (pkg, h) ∈ walk₁.pins := by
          intro e h found' headed'
          obtain rfl := some.inj (found.symm.trans found')
          obtain rfl := some.inj (headed.symm.trans headed')
          exact grows.pins (Finset.mem_insert_self _ _)
        cases opened : g.open_ entry with
        | error e =>
          simp only [opened] at after
          subst after
          obtain ⟨rfl, rfl⟩ := run
          have target : g.target at_ pkg = none := by simp [Registry.target, found, opened]
          exact went_single inv' (first.trans grows) split (by simp [target]) pinned
            fun _ => .inr ⟨answer_of_target_none split target, _, rfl⟩
        | ok id =>
          simp only [opened] at after
          obtain ⟨met, right⟩ := after
          have target := here id opened
          have answered := fun agreed => answer_of_target split target (right agreed)
          have reached : ∀ y, g.target at_ pkg = some y → walk₁.Met y := fun y there =>
            some.inj (target.symm.trans there) ▸ met
          cases result with
          | ok s =>
            obtain ⟨rfl, rfl⟩ := run
            exact went_single inv' (first.trans grows) split reached pinned
              fun agreed => .inl ⟨s, answered agreed, rfl⟩
          | error e =>
            obtain ⟨rfl, rfl⟩ := run
            exact went_single inv' (first.trans grows) split reached pinned
              fun agreed => .inr ⟨answered agreed, _, rfl⟩

variable {done : List String}

/-- The references of one lock, one after the other. -/
theorem resolveRefs_went (looks : Looks g lock refs look) (inv : Inv g lock refs walk)
    (place : ∀ p m y, g.Needs at_ done p m y → Referred g lock refs y p m ∧ ∀ x ∈ walk.visiting, TransGen g.Leads x y)
    (pins : ∀ p h, PinsAt at_ done p h → Pinned g lock refs p h)
    (run : resolveRefs look at_ done walk out = some (out', walk')) :
    Went g lock refs at_ done walk walk' out out' := by
  induction done generalizing walk out with
  | nil =>
    obtain ⟨rfl, rfl⟩ := run
    exact ⟨inv, .refl _, by simp [Registry.Needs], by simp [PinsAt], fun _ => rfl, by simp⟩
  | cons r rest ih =>
    simp only [resolveRefs, bind_eq_bind, bind_eq_some_iff, Prod.exists] at run
    obtain ⟨out₁, walk₁, first, run⟩ := run
    have needsFirst : ∀ {p m y}, g.Needs at_ [r] p m y → g.Needs at_ (r :: rest) p m y := by
      rintro p m y ⟨r', mem, needs⟩
      exact ⟨r', List.mem_cons.mpr (.inl (List.mem_singleton.mp mem)), needs⟩
    have needsRest : ∀ {p m y}, g.Needs at_ rest p m y → g.Needs at_ (r :: rest) p m y := by
      rintro p m y ⟨r', mem, needs⟩
      exact ⟨r', List.mem_cons_of_mem _ mem, needs⟩
    have went := resolveRef_went looks inv (fun p m y needs => place p m y (needsFirst needs))
      (fun p h ⟨r', mem, there⟩ => pins p h ⟨r', List.mem_cons.mpr (.inl (List.mem_singleton.mp mem)), there⟩) first
    have onward := ih went.inv (fun p m y needs => went.grows.visiting ▸ place p m y (needsRest needs))
      (fun p h ⟨r', mem, there⟩ => pins p h ⟨r', List.mem_cons_of_mem _ mem, there⟩) run
    refine ⟨onward.inv, went.grows.trans onward.grows, ?_, ?_, fun agreed => ?_, fun agreed => ?_⟩
    · rintro p m y ⟨r', mem, needs⟩
      rcases List.mem_cons.mp mem with rfl | mem
      · exact onward.grows.met (went.met p m y ⟨r', List.mem_singleton_self _, needs⟩)
      · exact onward.met p m y ⟨r', mem, needs⟩
    · rintro p h ⟨r', mem, there⟩
      rcases List.mem_cons.mp mem with rfl | mem
      · exact onward.grows.pins (went.pinned p h ⟨r', List.mem_singleton_self _, there⟩)
      · exact onward.pinned p h ⟨r', mem, there⟩
    · rw [onward.maps agreed, went.maps agreed]
      rfl
    · rw [onward.diagnostics agreed, went.diagnostics agreed]
      simp [and_assoc]

/-! ## One head -/

theorem gather_none {answer : String → Option ModuleSurface}
    (none_ : ∀ r ∈ refs, answer r = none) : gather answer refs out = out := by
  induction refs with
  | nil => rfl
  | cons r rest ih =>
    rw [List.forall_mem_cons] at none_
    simp only [gather, none_.1]
    exact ih none_.2

variable {d : ResolvedDeps}

theorem depsRight_of_maps {imports : List String} (read : g.flatImports node = .ok imports)
    (maps : d.maps = gather (answer g (g.committedLock node)) imports .empty) (diagnostics : d.diagnostics = [] ↔
      ∀ r ∈ imports, (splitPackageImport r).isSome → (answer g (g.committedLock node) r).isSome) :
    DepsRight g node d := by
  unfold DepsRight
  split_ifs with clean
  · have itself : d.maps = d := by
      show { d with diagnostics := [] } = d
      rw [← clean]
    exact ⟨imports, read, diagnostics.mp clean, itself ▸ maps⟩
  · rintro d' ⟨imports', read', all, -⟩
    obtain rfl := Except.ok.inj (read.symm.trans read')
    exact clean (diagnostics.mpr all)

/-- The dependencies of a head, with the head on the path. -/
theorem depsOf_right (looks : Looks g lock refs look)
    (inv : Inv g lock refs walk) (reached : Reached g lock refs node)
    (path : ∀ x ∈ walk.visiting, ReflTransGen g.Leads x node) (run : depsOf g look walk node = some (d, walk')) :
    Inv g lock refs walk' ∧ Grows walk walk' ∧ (∀ y, g.Leads node y → walk'.Met y) ∧
      (∀ p h, PinsAt (g.committedLock node) (g.importsOf node) p h → (p, h) ∈ walk'.pins) ∧
      (Agreed g lock refs → DepsRight g node d) := by
  unfold depsOf at run
  cases read : g.flatImports node with
  | error e =>
    simp only [read] at run
    obtain ⟨rfl, rfl⟩ := run
    refine ⟨inv, .refl _, ?_, ?_, fun _ => ?_⟩
    · rintro y ⟨p, m, r, mem, -⟩
      simp [Registry.importsOf, read] at mem
    · rintro p h ⟨r, mem, -⟩
      simp [Registry.importsOf, read] at mem
    · simp only [DepsRight]
      rintro d' ⟨refs', read', -⟩
      rw [read] at read'
      cases read'
  | ok imports =>
    have imported : g.importsOf node = imports := by simp [Registry.importsOf, read]
    simp only [read] at run
    split_ifs at run with any
    · have went := resolveRefs_went looks inv
        (fun p m y needs => ⟨.inr ⟨node, reached, by rwa [Registry.Uses, imported]⟩, fun x mem =>
          TransGen.tail' (path x mem) ⟨p, m, by rwa [Registry.Uses, imported]⟩⟩)
        (fun p h pinsAt => .inr ⟨node, reached, by rwa [imported]⟩) run
      refine ⟨went.inv, went.grows, ?_, ?_, fun agreed => ?_⟩
      · rintro y ⟨p, m, uses⟩
        exact went.met p m y (imported ▸ uses)
      · exact fun p h pinsAt => went.pinned p h (imported ▸ pinsAt)
      · exact depsRight_of_maps read (went.maps agreed) (by simpa [ResolvedDeps.empty] using went.diagnostics agreed)
    · obtain ⟨rfl, rfl⟩ := Prod.mk.inj (some.inj run)
      -- no package is imported, and the lock of the head is not read
      have none_ : ∀ r ∈ imports, splitPackageImport r = none := by simpa using any
      have unsplit : ∀ {p m : String} {r : String}, r ∈ imports → splitPackageImport r ≠ some (p, m) := by
        intro p m r mem split
        rw [none_ r mem] at split
        cases split
      refine ⟨inv, .refl _, ?_, ?_, fun _ => ?_⟩
      · rintro y ⟨p, m, r, mem, split, -⟩
        exact absurd split (unsplit (imported ▸ mem))
      · rintro p h ⟨r, mem, m, e, split, -⟩
        exact absurd split (unsplit (imported ▸ mem))
      · refine depsRight_of_maps read (gather_none fun r mem => answer_of_split_none (none_ r mem)).symm ?_
        refine ⟨fun _ r mem some_ => ?_, fun _ => rfl⟩
        simp [none_ r mem] at some_

theorem depsAt_right (looks : Looks g lock refs look)
    (inv : Inv g lock refs walk) (reached : Reached g lock refs node) (fresh : node ∉ walk.visiting)
    (path : ∀ x ∈ walk.visiting, TransGen g.Leads x node) (run : depsAt g look walk node = some (d, walk')) :
    Inv g lock refs walk' ∧ Grows walk walk' ∧ (walk'.deps node).isSome ∧
      (Agreed g lock refs → DepsRight g node d) := by
  unfold depsAt at run
  cases cached : walk.deps node with
  | some hit =>
    simp only [cached, some.injEq, Prod.mk.injEq] at run
    obtain ⟨rfl, rfl⟩ := run
    exact ⟨inv, .refl _, by simp [cached], fun agreed => inv.deps agreed node hit cached⟩
  | none =>
    simp only [cached, bind_eq_bind, bind_eq_some_iff, Prod.exists] at run
    obtain ⟨d, walk₂, run, rfl, rfl⟩ := run
    have entered : Inv g lock refs { walk with visiting := insert node walk.visiting } :=
      { inv with
        closed := fun n known y leads => (inv.closed n known y leads).imp_right (Finset.mem_insert_of_mem) }
    obtain ⟨inv₂, grows, closed, pins, right⟩ := depsOf_right looks entered reached (fun x mem => by
      rcases mem_insert.mp mem with rfl | mem
      · exact .refl
      · exact (path x mem).to_reflTransGen) run
    have kept : ∀ n, (walk₂.deps n).isSome → (Function.update walk₂.deps node (some d) n).isSome := by
      intro n known
      by_cases eq : n = node
      · simp [eq]
      · simpa [eq] using known
    have left_ : ∀ y, (walk₂.deps y).isSome ∨ y ∈ walk₂.visiting →
        (Function.update walk₂.deps node (some d) y).isSome ∨ y ∈ walk₂.visiting.erase node := by
      intro y met
      by_cases eq : y = node
      · simp [eq]
      · exact met.imp (kept y) fun mem => mem_erase.mpr ⟨eq, mem⟩
    refine ⟨?_, ⟨?_, fun n known => kept n (grows.deps n known), grows.pins⟩, by simp, right⟩
    · refine ⟨fun n m r found => kept n (inv₂.known n m r found), fun n known y leads => left_ y ?_,
        fun n known p h pinsAt => ?_, inv₂.sound, inv₂.surfaces, fun agreed n e found => ?_⟩
      · by_cases eq : n = node
        · exact closed y (eq ▸ leads)
        · exact inv₂.closed n (by simpa [eq] using known) y leads
      · by_cases eq : n = node
        · exact pins p h (eq ▸ pinsAt)
        · exact inv₂.pins n (by simpa [eq] using known) p h pinsAt
      · by_cases eq : n = node
        · subst eq
          simp only [update_self, some.injEq] at found
          exact found ▸ right agreed
        · simp only [ne_eq, eq, not_false_eq_true, update_of_ne] at found
          exact inv₂.deps agreed n e found
    · show walk₂.visiting.erase node = walk.visiting
      rw [grows.visiting]
      exact erase_insert fresh

/-- **A lookup of a surface does what it is to do**, whatever the fuel. -/
theorem surface_looks (fuel : Nat) : Looks g lock refs (surface g fuel) := by
  induction fuel with
  | zero => exact fun walk entry head package module result walk' _ _ run => nomatch run
  | succ fuel ih =>
    intro walk entry head package module result walk' inv place run
    unfold surface at run
    cases opened : g.open_ entry with
    | error e =>
      simp only [opened] at run
      obtain ⟨rfl, rfl⟩ := run
      exact ⟨inv, .refl _, rfl⟩
    | ok id =>
      simp only [opened] at run
      obtain ⟨referred, path⟩ := place id opened
      cases cached : walk.surfaces ((id, head), module) with
      | some hit =>
        simp only [cached] at run
        obtain ⟨rfl, rfl⟩ := run
        exact ⟨inv, .refl _, .inl (inv.known _ _ _ cached),
          fun agreed => inv.surfaces agreed _ _ _ cached package referred⟩
      | none =>
        simp only [cached] at run
        split_ifs at run with onPath
        · obtain ⟨rfl, rfl⟩ := Prod.mk.inj (some.inj run)
          -- the path leads back to the head
          exact ⟨inv, .refl _, .inr onPath, fun _ s has => has.acyclic (path _ onPath)⟩
        · simp only [bind_eq_bind, bind_eq_some_iff, Prod.exists, some.injEq,
            Prod.mk.injEq] at run
          obtain ⟨d, walk₂, run, eq, rfl⟩ := run
          obtain ⟨inv₂, grows, known, right⟩ := depsAt_right ih inv referred.reached onPath path run
          have rightResult : Agreed g lock refs → SurfaceRight g (id, head) package module result := by
            intro agreed
            have rightDeps := right agreed
            unfold DepsRight at rightDeps
            split_ifs at rightDeps with clean
            · simp only [clean] at eq
              subst eq
              cases made : g.moduleSurface (id, head) package module d with
              | ok s => exact has_iff.mpr ⟨d, rightDeps, made⟩
              | error e =>
                intro s has
                obtain ⟨d', resolved, made'⟩ := has_iff.mp has
                rw [← rightDeps.unique resolved, made] at made'
                cases made'
            · have unclean : d.diagnostics.isEmpty = false := by simpa using clean
              simp only [unclean] at eq
              subst eq
              intro s has
              obtain ⟨d', resolved, -⟩ := has_iff.mp has
              exact rightDeps d' resolved
          refine ⟨?_, ⟨grows.visiting, grows.deps, grows.pins⟩, .inl known, rightResult⟩
          refine ⟨fun n m r found => ?_, inv₂.closed, inv₂.pins, inv₂.sound,
            fun agreed n m r found p there => ?_, inv₂.deps⟩
          · by_cases same : (n, m) = ((id, head), module)
            · obtain ⟨rfl, rfl⟩ := Prod.mk.inj same
              exact known
            · exact inv₂.known n m r (by simpa [update_of_ne same] using found)
          · by_cases same : (n, m) = ((id, head), module)
            · obtain ⟨rfl, rfl⟩ := Prod.mk.inj same
              have eq' : result = r := by
                simp only [update_self, some.injEq] at found
                exact eq.symm.trans found
              -- what is cached under one name of the package is right under the other
              subst eq'
              exact (rightResult agreed).rename (agreed _ _ _ _ referred there) (agreed _ _ _ _ there referred)
            · exact inv₂.surfaces agreed n m r (by simpa [update_of_ne same] using found) p there

/-! ## Termination -/

/-- A call leaves the path as it was. -/
def KeepsPath (look : Lookup) : Prop :=
  ∀ walk entry head package module result walk', look walk entry head package module = some (result, walk') →
    walk'.visiting = walk.visiting

theorem resolveRef_path (keeps : KeepsPath look) (run : resolveRef look at_ walk out r = some (out', walk')) :
    walk'.visiting = walk.visiting := by
  unfold resolveRef at run
  repeat' split at run
  · cases run
    rfl
  · cases run
    rfl
  · cases run
    rfl
  · simp only [bind_eq_bind, bind_eq_some_iff, Prod.exists] at run
    obtain ⟨result, walk₁, looked, run⟩ := run
    have kept := keeps _ _ _ _ _ _ _ looked
    cases result <;> cases run <;> exact kept

theorem resolveRefs_path (keeps : KeepsPath look) (run : resolveRefs look at_ done walk out = some (out', walk')) :
    walk'.visiting = walk.visiting := by
  induction done generalizing walk out with
  | nil =>
    cases run
    rfl
  | cons r rest ih =>
    simp only [resolveRefs, bind_eq_bind, bind_eq_some_iff, Prod.exists] at run
    obtain ⟨out₁, walk₁, first, run⟩ := run
    exact (ih run).trans (resolveRef_path keeps first)

theorem depsAt_path (keeps : KeepsPath look)
    (fresh : node ∉ walk.visiting) (run : depsAt g look walk node = some (d, walk')) :
    walk'.visiting = walk.visiting := by
  unfold depsAt at run
  split at run
  · cases run
    rfl
  · simp only [bind_eq_bind, bind_eq_some_iff, Prod.exists] at run
    obtain ⟨d, walk₂, run, -, rfl⟩ := run
    have kept : walk₂.visiting = insert node walk.visiting := by
      unfold depsOf at run
      split at run
      · cases run
        rfl
      · split_ifs at run
        · exact resolveRefs_path keeps run
        · cases run
          rfl
    show walk₂.visiting.erase node = walk.visiting
    rw [kept]
    exact erase_insert fresh

theorem surface_path (fuel : Nat) : KeepsPath (surface g fuel) := by
  induction fuel with
  | zero => exact fun walk entry head package module result walk' run => nomatch run
  | succ fuel ih =>
    intro walk entry head package module result walk' run
    unfold surface at run
    split at run
    · cases run
      rfl
    · dsimp only at run
      split at run
      · cases run
        rfl
      · split_ifs at run with onPath
        · cases run
          rfl
        · simp only [bind_eq_bind, bind_eq_some_iff, Prod.exists] at run
          obtain ⟨d, walk₂, run, -, rfl⟩ := run
          have kept := depsAt_path ih onPath run
          exact kept

/-- A lookup ends when fewer heads than this are off the path. -/
def Ends (g : Registry) (nodes : Finset Node) (n : Nat) (look : Lookup) : Prop :=
  ∀ walk entry head package module, (∀ id, g.open_ entry = .ok id → (id, head) ∈ nodes) →
    (nodes \ walk.visiting).card < n → (look walk entry head package module).isSome

theorem resolveRefs_ends {nodes : Finset Node} {n : Nat} (keeps : KeepsPath look) (ends : Ends g nodes n look)
    (inside : ∀ p m y, g.Needs at_ done p m y → y ∈ nodes) (room : (nodes \ walk.visiting).card < n) :
    (resolveRefs look at_ done walk out).isSome := by
  induction done generalizing walk out with
  | nil => rfl
  | cons r rest ih =>
    have first : (resolveRef look at_ walk out r).isSome := by
      unfold resolveRef
      split
      · rfl
      rename_i pkg module split_
      split
      · rfl
      rename_i entry found
      split
      · rfl
      rename_i head headed
      have looked := ends { walk with pins := insert (pkg, head) walk.pins } entry head pkg module
        (fun id opened => inside pkg module _ ⟨r, List.mem_cons_self, split_, by
          simp [Registry.target, found, headed, opened]⟩) room
      obtain ⟨⟨result, walk₁⟩, looked⟩ := isSome_iff_exists.mp looked
      cases result <;> simp [looked]
    obtain ⟨⟨out₁, walk₁⟩, first⟩ := isSome_iff_exists.mp first
    have kept := resolveRef_path keeps first
    simp only [resolveRefs, first]
    refine ih (fun p m y needs => inside p m y ?_) (by rwa [kept])
    obtain ⟨r', mem, there⟩ := needs
    exact ⟨r', List.mem_cons_of_mem _ mem, there⟩

/-- **A lookup ends**: every head that it enters goes onto the path, and the heads are finitely many. -/
theorem surface_ends {nodes : Finset Node} (closed : ∀ x ∈ nodes, ∀ y, g.Leads x y → y ∈ nodes) (n : Nat) :
    Ends g nodes n (surface g n) := by
  induction n with
  | zero => exact fun walk entry head package module _ room => absurd room (Nat.not_lt_zero _)
  | succ n ih =>
    intro walk entry head package module inside room
    unfold surface
    split
    · rfl
    rename_i id opened
    dsimp only
    split
    · rfl
    split_ifs with onPath
    · rfl
    have mem := inside id opened
    have less : (nodes \ insert (id, head) walk.visiting).card < n := by
      have smaller : (nodes \ insert (id, head) walk.visiting).card < (nodes \ walk.visiting).card := by
        refine card_lt_card ⟨sdiff_subset_sdiff (Finset.Subset.refl _) (Finset.subset_insert _ _),
          fun back => ?_⟩
        have there := back (mem_sdiff.mpr ⟨mem, onPath⟩)
        exact (mem_sdiff.mp there).2 (Finset.mem_insert_self _ _)
      omega
    have entered : (depsAt g (surface g n) walk (id, head)).isSome := by
      unfold depsAt
      split
      · rfl
      have found : (depsOf g (surface g n) { walk with visiting := insert (id, head) walk.visiting }
          (id, head)).isSome := by
        unfold depsOf
        split
        · rfl
        rename_i imports read
        split_ifs
        · refine resolveRefs_ends (surface_path n) ih (fun p m y needs => closed _ mem y ⟨p, m, ?_⟩) less
          rwa [Registry.Uses, Registry.importsOf, read]
        · rfl
      obtain ⟨⟨d, walk₁⟩, found⟩ := isSome_iff_exists.mp found
      simp [found]
    obtain ⟨⟨d, walk₁⟩, entered⟩ := isSome_iff_exists.mp entered
    simp [entered]

/-! ## Trouble -/

/-- One module of a head. -/
structure Use where
  node : Node
  package : String
  module : String

/-- The head of the one imports the other. -/
def Registry.Needing (g : Registry) (a b : Use) : Prop := g.Uses a.node b.package b.module b.node

/-- Nothing is wrong with the module itself: its head can be read, every package that the head imports is pinned to a
head of a store that opens, the head does not depend on itself, and with dependencies that resolve the module is well
typed. -/
structure Clean (g : Registry) (a : Use) : Prop where
  readable : ∃ refs, g.flatImports a.node = .ok refs
  pinned : ∀ r ∈ g.importsOf a.node, ∀ p m, splitPackageImport r = some (p, m) →
    (g.target (g.committedLock a.node) p).isSome
  acyclic : ¬ TransGen g.Leads a.node a.node
  typed : ∀ d, Resolved g a.node d → ∃ s, g.moduleSurface a.node a.package a.module d = .ok s

variable {s : ModuleSurface}

theorem Has.clean {a : Use} (h : Has g a.node a.package a.module s) : Clean g a := by
  have acyclic := h.acyclic
  obtain ⟨d, resolved, made⟩ := has_iff.mp h
  have again := resolved
  obtain ⟨refs, read, all, -⟩ := again
  refine ⟨⟨refs, read⟩, fun r mem p m split => ?_, acyclic, fun d' resolved' => ⟨s, resolved.unique resolved' ▸ made⟩⟩
  simp only [Registry.importsOf, read] at mem
  obtain ⟨t, yields⟩ := answer_isSome.mp (all r mem (by simp [split]))
  obtain ⟨p', m', n, split', target, -⟩ := yields
  obtain ⟨rfl, rfl⟩ := Prod.mk.inj (some.inj (split.symm.trans split'))
  simp [target]

theorem Has.needing {a b : Use} (h : Has g a.node a.package a.module s) (needs : g.Needing a b) :
    ∃ t, Has g b.node b.package b.module t := by
  obtain ⟨d, ⟨refs, read, all, -⟩, -⟩ := has_iff.mp h
  obtain ⟨r, mem, split, target⟩ := needs
  simp only [Registry.importsOf, read] at mem
  obtain ⟨t, p', m', n, split', target', has⟩ := answer_isSome.mp (all r mem (by simp [split]))
  obtain ⟨eq, eq'⟩ := Prod.mk.inj (some.inj (split.symm.trans split'))
  obtain rfl := some.inj (target.symm.trans (eq ▸ target'))
  exact ⟨t, eq ▸ eq' ▸ has⟩

/-- Along an edge fewer heads lie below, as long as no head lies below itself. -/
theorem below_lt {x y : Node} (finite : {n | TransGen g.Leads x n}.Finite) (acyclic : ¬ TransGen g.Leads y y)
    (leads : g.Leads x y) : {n | TransGen g.Leads y n}.ncard < {n | TransGen g.Leads x n}.ncard := by
  refine Set.ncard_lt_ncard ⟨fun n below => TransGen.head leads below, fun back => ?_⟩ finite
  exact acyclic (back (TransGen.single leads))

/-- **A module has a surface exactly when nothing that it reaches is in trouble.** -/
theorem has_iff_clean {a : Use} (finite : {n | ReflTransGen g.Leads a.node n}.Finite) :
    (∃ s, Has g a.node a.package a.module s) ↔ ∀ b, ReflTransGen g.Needing a b → Clean g b := by
  constructor
  · intro has b reaches
    have there : ∃ s, Has g b.node b.package b.module s := by
      induction reaches with
      | refl => exact has
      | tail _ needs ih => exact ih.elim fun s h => h.needing needs
    exact there.elim fun s h => h.clean
  · intro clean
    have each : ∀ n b, ReflTransGen g.Needing a b → {k | TransGen g.Leads b.node k}.ncard = n →
        ∃ s, Has g b.node b.package b.module s := by
      intro n
      induction n using Nat.strong_induction_on with
      | _ n ih =>
        intro b reaches size
        have here := clean b reaches
        obtain ⟨refs, read⟩ := here.readable
        have imported : g.importsOf b.node = refs := by simp [Registry.importsOf, read]
        have onward : ReflTransGen g.Leads a.node b.node := by
          refine ReflTransGen.lift Use.node (fun x y needs => ?_) _ _ reaches
          exact ⟨y.package, y.module, needs⟩
        have few : {k | TransGen g.Leads b.node k}.Finite :=
          finite.subset fun k below => onward.trans below.to_reflTransGen
        have answered : ∀ r ∈ refs, (splitPackageImport r).isSome →
            (answer g (g.committedLock b.node) r).isSome := by
          intro r mem some_
          obtain ⟨⟨p, m⟩, split⟩ := isSome_iff_exists.mp some_
          obtain ⟨y, target⟩ := isSome_iff_exists.mp (here.pinned r (imported ▸ mem) p m split)
          have needs : g.Needing b ⟨y, p, m⟩ := ⟨r, imported ▸ mem, split, target⟩
          have there := reaches.tail needs
          have smaller := below_lt few (clean _ there).acyclic ⟨p, m, needs⟩
          obtain ⟨s, has⟩ := ih _ (size ▸ smaller) ⟨y, p, m⟩ there rfl
          exact answer_isSome.mpr ⟨s, p, m, y, split, target, has⟩
        have resolved : Resolved g b.node _ := ⟨refs, read, answered, rfl⟩
        obtain ⟨s, made⟩ := here.typed _ resolved
        exact ⟨s, has_iff.mpr ⟨_, resolved, made⟩⟩
    exact each _ a .refl rfl

/-! ## The whole resolution -/

theorem start_inv : Inv g lock refs ⟨fun _ => none, fun _ => none, ∅, ∅⟩ where
  known _ _ _ found := nomatch found
  closed _ known := nomatch known
  pins _ known := nomatch known
  sound _ _ mem := absurd mem (notMem_empty _)
  surfaces _ _ _ _ found := nomatch found
  deps _ _ _ found := nomatch found

variable {fuel : Nat}

theorem root_went
    (run : resolveRefs (surface g fuel) lock refs ⟨fun _ => none, fun _ => none, ∅, ∅⟩ .empty = some (out, walk)) :
    Went g lock refs lock refs ⟨fun _ => none, fun _ => none, ∅, ∅⟩ walk .empty out :=
  resolveRefs_went (surface_looks fuel) start_inv
    (fun _ _ _ needs => ⟨.inl needs, fun _ mem => absurd mem (notMem_empty _)⟩) (fun _ _ pinsAt => .inl pinsAt) run

theorem pins_iff
    (run : resolveRefs (surface g fuel) lock refs ⟨fun _ => none, fun _ => none, ∅, ∅⟩ .empty = some (out, walk))
    (p h : String) : (p, h) ∈ walk.pins ↔ Pinned g lock refs p h := by
  have went := root_went run
  have settled : ∀ {y}, walk.Met y → (walk.deps y).isSome := by
    rintro y (known | path)
    · exact known
    · rw [went.grows.visiting] at path
      exact absurd path (notMem_empty _)
  have met : ∀ x, Reached g lock refs x → (walk.deps x).isSome := by
    intro x reached
    induction reached with
    | root needs => exact settled (went.met _ _ _ needs)
    | step _ leads ih => exact settled (went.inv.closed _ ih _ leads)
  constructor
  · exact went.inv.sound p h
  · rintro (pinsAt | ⟨x, reached, pinsAt⟩)
    · exact went.pinned p h pinsAt
    · exact went.inv.pins x (met x reached) p h pinsAt

/-- The diagnostics of the walk itself are no conflicts. -/
def TypeError.Conflicts (package : String) : TypeError → Prop
  | .dependencyConflict _ p _ => p = package
  | _ => False

theorem mem_headsOf {h : String} : h ∈ walk.headsOf p ↔ (p, h) ∈ walk.pins := by
  simp [Walk.headsOf]

theorem conflicts_iff :
    (∃ e ∈ walk.conflicts, e.Conflicts p) ↔ ∃ h h', h ≠ h' ∧ (p, h) ∈ walk.pins ∧ (p, h') ∈ walk.pins := by
  have more : 1 < (walk.headsOf p).card ↔ ∃ h h', h ≠ h' ∧ (p, h) ∈ walk.pins ∧ (p, h') ∈ walk.pins := by
    rw [one_lt_card]
    simp only [mem_headsOf]
    constructor
    · rintro ⟨h, mem, h', mem', ne⟩
      exact ⟨h, h', ne, mem, mem'⟩
    · rintro ⟨h, h', ne, mem, mem'⟩
      exact ⟨h, mem, h', mem', ne⟩
  rw [← more]
  simp only [Walk.conflicts, List.mem_map, List.mem_filter, mem_sort, mem_image, decide_eq_true_eq]
  constructor
  · rintro ⟨_, ⟨q, ⟨-, many⟩, rfl⟩, eq⟩
    exact eq ▸ many
  · intro many
    obtain ⟨h, mem⟩ := card_pos.mp (Nat.lt_of_succ_lt many)
    exact ⟨_, ⟨p, ⟨⟨(p, h), mem_headsOf.mp mem, rfl⟩, many⟩, rfl⟩, rfl⟩

theorem resolveRefs_noConflict (none_ : ∀ e ∈ out.diagnostics, ¬ e.Conflicts p)
    (run : resolveRefs look at_ done walk out = some (out', walk')) : ∀ e ∈ out'.diagnostics, ¬ e.Conflicts p := by
  induction done generalizing walk out with
  | nil =>
    cases run
    exact none_
  | cons r rest ih =>
    simp only [resolveRefs, bind_eq_bind, bind_eq_some_iff, Prod.exists] at run
    obtain ⟨out₁, walk₁, first, run⟩ := run
    have reported : ∀ e, ¬ TypeError.Conflicts p e → ∀ e' ∈ (out.report e).diagnostics, ¬ e'.Conflicts p := by
      intro e no e' mem
      rcases mem_append.mp mem with mem | mem
      · exact none_ e' mem
      · exact List.mem_singleton.mp mem ▸ no
    refine ih ?_ run
    unfold resolveRef at first
    repeat' split at first
    · cases first
      exact none_
    · cases first
      exact reported _ id
    · cases first
      exact reported _ id
    · simp only [bind_eq_bind, bind_eq_some_iff, Prod.exists] at first
      obtain ⟨result, walk₂, -, first⟩ := first
      cases result <;> cases first
      · exact reported _ id
      · exact none_

/-- What the maps have for a reference. -/
def ResolvedDeps.entry (d : ResolvedDeps) (r : String) : Option Ty × Option (List Ast.TypeDecl) × Option String :=
  (d.modules r, d.types r, d.prefixes r)

/-- What the maps have for a reference with this surface. -/
def shown : Option ModuleSurface → Option Ty × Option (List Ast.TypeDecl) × Option String
  | none => (none, none, none)
  | some s => (some s.record, if s.types.isEmpty then none else some s.types, s.prefix_)

theorem record_entry (before : out.entry r = shown none ∨ out.entry r = shown (some s)) :
    (out.record r s).entry r = shown (some s) := by
  simp only [ResolvedDeps.entry, shown, ResolvedDeps.record, Prod.mk.injEq, update_self] at before ⊢
  refine ⟨trivial, ?_, ?_⟩
  · split_ifs with empty
    · rcases before with before | before
      · exact before.2.1
      · simpa [empty] using before.2.1
    · simp
  · cases found : s.prefix_ with
    | none =>
      rcases before with before | before
      · exact before.2.2
      · exact before.2.2.trans found
    | some p => simp

theorem record_entry_other {r' : String} (ne : r ≠ r') : (out.record r' s).entry r = out.entry r := by
  simp only [ResolvedDeps.entry, ResolvedDeps.record, Prod.mk.injEq]
  refine ⟨by simp [ne], ?_, ?_⟩
  · split_ifs <;> simp [ne]
  · cases s.prefix_ <;> simp [ne]

/-- What one answer adds to the maps. -/
def ResolvedDeps.settle (out : ResolvedDeps) (r : String) (answer : Option ModuleSurface) : ResolvedDeps :=
  match answer with
  | some s => out.record r s
  | none => out

theorem settle_entry {answer : Option ModuleSurface}
    (before : out.entry r = shown none ∨ out.entry r = shown answer) : (out.settle r answer).entry r = shown answer := by
  cases answer with
  | none => exact before.elim id id
  | some s => exact record_entry before

theorem settle_entry_other {r' : String} {answer : Option ModuleSurface} (ne : r ≠ r') :
    (out.settle r' answer).entry r = out.entry r := by
  cases answer with
  | none => rfl
  | some s => exact record_entry_other ne

theorem gather_keeps {answer : String → Option ModuleSurface}
    (before : out.entry r = shown (answer r)) : (gather answer refs out).entry r = shown (answer r) := by
  induction refs generalizing out with
  | nil => exact before
  | cons r' rest ih =>
    show (gather answer rest (out.settle r' (answer r'))).entry r = _
    refine ih ?_
    by_cases eq : r = r'
    · exact eq ▸ settle_entry (.inr (eq ▸ before))
    · rw [settle_entry_other eq, before]

theorem gather_entry {answer : String → Option ModuleSurface}
    (mem : r ∈ refs) (before : out.entry r = shown none) : (gather answer refs out).entry r = shown (answer r) := by
  induction refs generalizing out with
  | nil => exact absurd mem not_mem_nil
  | cons r' rest ih =>
    show (gather answer rest (out.settle r' (answer r'))).entry r = _
    by_cases eq : r = r'
    · subst eq
      exact gather_keeps (settle_entry (.inl before))
    · refine ih ((List.mem_cons.mp mem).resolve_left eq) ?_
      rw [settle_entry_other eq, before]

variable {stages : List Ast.Stage}

theorem resolveWithLock_entry (agreed : Agreed g lock (importRefs stages)) (mem : r ∈ importRefs stages)
    (run : resolveWithLock g fuel stages lock = some out) : out.entry r = shown (answer g lock r) := by
  simp only [resolveWithLock, bind_eq_bind, bind_eq_some_iff, Prod.exists, some.injEq] at run
  obtain ⟨out₁, walk, run, rfl⟩ := run
  show out₁.maps.entry r = _
  rw [(root_went run).maps agreed]
  exact gather_entry mem rfl

/-- A reference alone reaches less. -/
theorem Reached.alone {n : Node} (mem : r ∈ refs) (reached : Reached g lock [r] n) : Reached g lock refs n := by
  induction reached with
  | root needs =>
    obtain ⟨r', there, needs⟩ := needs
    exact .root ⟨r', List.mem_singleton.mp there ▸ mem, needs⟩
  | step _ leads ih => exact .step ih leads

theorem Agreed.alone (mem : r ∈ refs) (agreed : Agreed g lock refs) : Agreed g lock [r] := by
  have more : ∀ {n p m}, Referred g lock [r] n p m → Referred g lock refs n p m := by
    rintro n p m (⟨r', there, needs⟩ | ⟨x, reached, uses⟩)
    · exact .inl ⟨r', List.mem_singleton.mp there ▸ mem, needs⟩
    · exact .inr ⟨x, reached.alone mem, uses⟩
  exact fun n m p p' referred referred' => agreed n m p p' (more referred) (more referred')

theorem importRefs_single (r importAlias : String) : importRefs [.importDecl ⟨r, importAlias⟩] = [r] := by
  simp [importRefs, eraseDups_cons]

theorem resolveWithLock_ends (finite : {n | Reached g lock (importRefs stages) n}.Finite) :
    ∃ fuel out, resolveWithLock g fuel stages lock = some out := by
  let nodes := finite.toFinset
  have closed : ∀ x ∈ nodes, ∀ y, g.Leads x y → y ∈ nodes := by
    intro x mem y leads
    rw [Set.Finite.mem_toFinset] at mem ⊢
    exact Reached.step mem leads
  have ended : (resolveRefs (surface g (nodes.card + 1)) lock (importRefs stages)
      ⟨fun _ => none, fun _ => none, ∅, ∅⟩ .empty).isSome :=
    resolveRefs_ends (surface_path _) (surface_ends closed _)
      (fun p m y needs => finite.mem_toFinset.mpr (.root needs)) (by simp)
  obtain ⟨⟨out, walk⟩, run⟩ := isSome_iff_exists.mp ended
  exact ⟨nodes.card + 1, _, by simp only [resolveWithLock, run]; rfl⟩

theorem resolveWithLock_conflicts
    (run : resolveWithLock g fuel stages lock = some out) (p : String) : (∃ e ∈ out.diagnostics, e.Conflicts p) ↔
      ∃ h h', h ≠ h' ∧ Pinned g lock (importRefs stages) p h ∧ Pinned g lock (importRefs stages) p h' := by
  simp only [resolveWithLock, bind_eq_bind, bind_eq_some_iff, Prod.exists, some.injEq] at run
  obtain ⟨out₁, walk, run, rfl⟩ := run
  simp only [← pins_iff run]
  rw [← conflicts_iff]
  have own := resolveRefs_noConflict (p := p) (fun e mem => absurd mem not_mem_nil) run
  constructor
  · rintro ⟨e, mem, conflicts⟩
    exact (mem_append.mp mem).elim (fun mem => absurd conflicts (own e mem)) fun mem => ⟨e, mem, conflicts⟩
  · rintro ⟨e, mem, conflicts⟩
    exact ⟨e, mem_append_right _ mem, conflicts⟩

/-- **Dependency resolution is its specification.** Over finitely many heads it ends; a conflict is reported for the
packages that the closure pins to two heads; and where a module that is referred to by two names of its package has
the same surface by both, a reference resolves exactly when nothing that it reaches is in trouble, and to what it
resolves to alone. -/
theorem resolveWithLock_exact (g : Registry) (stages : List Ast.Stage) (lock : Option LockFile)
    (finite : {n | Reached g lock (importRefs stages) n}.Finite) :
    (∃ fuel out, resolveWithLock g fuel stages lock = some out) ∧
    ∀ fuel out, resolveWithLock g fuel stages lock = some out → (∀ p, (∃ e ∈ out.diagnostics, e.Conflicts p) ↔
        ∃ h h', h ≠ h' ∧ Pinned g lock (importRefs stages) p h ∧ Pinned g lock (importRefs stages) p h') ∧
      (Agreed g lock (importRefs stages) → ∀ r ∈ importRefs stages, ∀ p m, splitPackageImport r = some (p, m) →
        ((out.modules r).isSome ↔
          ∃ n, g.target lock p = some n ∧ ∀ b, ReflTransGen g.Needing ⟨n, p, m⟩ b → Clean g b) ∧
        ∀ importAlias fuel' out', resolveWithLock g fuel' [.importDecl ⟨r, importAlias⟩] lock = some out' →
          out.entry r = out'.entry r) := by
  refine ⟨resolveWithLock_ends finite, fun fuel out run => ⟨resolveWithLock_conflicts run, ?_⟩⟩
  intro agreed r mem p m split
  have entry := resolveWithLock_entry agreed mem run
  refine ⟨?_, fun importAlias fuel' out' run' => ?_⟩
  · have resolved : (out.modules r).isSome ↔ (answer g lock r).isSome := by
      have modules : out.modules r = (shown (answer g lock r)).1 := congrArg Prod.fst entry
      rw [modules]
      cases answer g lock r <;> simp [shown]
    rw [resolved, answer_isSome]
    -- the surface of the reference is the one of its module
    have there : (∃ s, Yields g lock r s) ↔ ∃ n, g.target lock p = some n ∧ ∃ s, Has g n p m s := by
      constructor
      · rintro ⟨s, p', m', n, split', target, has⟩
        obtain ⟨rfl, rfl⟩ := Prod.mk.inj (some.inj (split.symm.trans split'))
        exact ⟨n, target, s, has⟩
      · rintro ⟨n, target, s, has⟩
        exact ⟨s, p, m, n, split, target, has⟩
    rw [there]
    refine exists_congr fun n => and_congr_right fun target => ?_
    refine has_iff_clean (a := ⟨n, p, m⟩) (finite.subset fun k reaches => ?_)
    induction reaches with
    | refl => exact .root ⟨r, mem, split, target⟩
    | tail _ leads ih => exact Reached.step ih leads
  · have alone : importRefs [.importDecl ⟨r, importAlias⟩] = [r] := importRefs_single r importAlias
    rw [entry, resolveWithLock_entry (alone ▸ agreed.alone mem) (alone ▸ List.mem_singleton_self r) run']

/-! ## Two names for one package -/

/-- A store with one head that imports nothing and has one file, `src/lib.lex`; the prefix of the file is the one that
the source computes for a package of this name. -/
def oneStore : Registry where
  open_ e := .ok e.registry
  flatImports _ := .ok []
  committedLock _ := none
  moduleSurface _ package _ _ :=
    .ok ⟨.record [], [], some (if package = "a" then "lib_14524960" else "lib_eee01915")⟩

/-- The lock pins two packages to the same head of the same store. -/
def twoNames : LockFile :=
  ⟨1, [⟨"a", "store", "^1.0", "1.0.0", some "head"⟩, ⟨"b", "store", "^1.0", "1.0.0", some "head"⟩]⟩

theorem oneStore_finite (refs : List String) : {n | Reached oneStore (some twoNames) refs n}.Finite := by
  refine (Set.finite_singleton (("store", "head") : Node)).subset fun n reached => ?_
  have target : ∀ p n, oneStore.target (some twoNames) p = some n → n = ("store", "head") := by
    intro p n found
    simp only [Registry.target, twoNames, LockFile.entry] at found
    by_cases isA : ("a" : String) = p
    · simp [isA, oneStore] at found
      exact found.symm
    · by_cases isB : ("b" : String) = p
      · simp [isA, isB, oneStore] at found
        exact found.symm
      · simp [isA, isB] at found
  cases reached with
  | root needs => exact target _ _ needs.choose_spec.2.2
  | step _ leads =>
    obtain ⟨p, m, r, mem, -⟩ := leads
    simp [Registry.importsOf, oneStore] at mem

theorem oneStore_uses {x y : Node} : ¬ oneStore.Uses x p m y := by
  rintro ⟨r, mem, -⟩
  simp [Registry.importsOf, oneStore] at mem

/-- One of the two names alone: it resolves, and nothing that it reaches is in trouble. -/
theorem resolveWithLock_exact_example : ∃ n, oneStore.target (some twoNames) "a" = some n ∧
    ∀ b, ReflTransGen oneStore.Needing ⟨n, "a", "lib"⟩ b → Clean oneStore b := by
  have exact_ := resolveWithLock_exact oneStore [.importDecl ⟨"a/lib", "lib"⟩] (some twoNames) (oneStore_finite _)
  have split : splitPackageImport "a/lib" = some ("a", "lib") := by decide +kernel
  have alone : importRefs [.importDecl ⟨"a/lib", "lib"⟩] = ["a/lib"] := importRefs_single _ _
  have found : (resolveWithLock oneStore 1 [.importDecl ⟨"a/lib", "lib"⟩] (some twoNames)).bind
      (fun out => out.prefixes "a/lib") = some "lib_14524960" := by decide +kernel
  obtain ⟨out, run, shown_⟩ := bind_eq_some_iff.mp found
  have agreed : Agreed oneStore (some twoNames) ["a/lib"] := by
    have named : ∀ {n p m}, Referred oneStore (some twoNames) ["a/lib"] n p m → p = "a" := by
      rintro n p m (⟨r, mem, split', -⟩ | ⟨x, -, uses⟩)
      · rw [List.mem_singleton.mp mem] at split'
        exact (congrArg Prod.fst (some.inj split')).symm
      · exact absurd uses oneStore_uses
    intro n m p p' referred referred' s has
    rwa [named referred', ← named referred]
  have entry := (resolveWithLock_entry (alone ▸ agreed) (alone ▸ List.mem_singleton_self _) run)
  refine ((exact_.2 1 out run).2 agreed _ (List.mem_singleton_self _) _ _ split).1.mp ?_
  cases known : answer oneStore (some twoNames) "a/lib" with
  | none =>
    rw [known] at entry
    rw [show out.prefixes "a/lib" = none from congrArg (·.2.2) entry] at shown_
    cases shown_
  | some s =>
    rw [known] at entry
    rw [show out.modules "a/lib" = some s.record from congrArg Prod.fst entry]
    rfl

/-- With both names imported, the second one has the surface of the first; alone it has its own. -/
theorem resolveWithLock_exact_fails : ¬ ∀ (g : Registry) (stages : List Ast.Stage) (lock : Option LockFile),
    {n | Reached g lock (importRefs stages) n}.Finite → ∀ fuel out, resolveWithLock g fuel stages lock = some out →
      ∀ r ∈ importRefs stages, ∀ importAlias fuel' out',
        resolveWithLock g fuel' [.importDecl ⟨r, importAlias⟩] lock = some out' → out.entry r = out'.entry r := by
  intro claim
  have both : (resolveWithLock oneStore 1 [.importDecl ⟨"a/lib", "a"⟩, .importDecl ⟨"b/lib", "b"⟩]
      (some twoNames)).bind (fun out => out.prefixes "b/lib") = some "lib_14524960" := by decide +kernel
  have alone : (resolveWithLock oneStore 1 [.importDecl ⟨"b/lib", "b"⟩] (some twoNames)).bind
      (fun out => out.prefixes "b/lib") = some "lib_eee01915" := by decide +kernel
  obtain ⟨out, run, first⟩ := bind_eq_some_iff.mp both
  obtain ⟨out', run', own⟩ := bind_eq_some_iff.mp alone
  have imported : "b/lib" ∈ importRefs [.importDecl ⟨"a/lib", "a"⟩, .importDecl ⟨"b/lib", "b"⟩] := by decide +kernel
  have same := claim oneStore _ _ (oneStore_finite _) 1 out run "b/lib" imported "b" 1 out' run'
  have prefixes : out.prefixes "b/lib" = out'.prefixes "b/lib" := congrArg (·.2.2) same
  rw [first, own] at prefixes
  exact absurd prefixes (by decide)

end LexLang.Store.Deps
