/-
# LexLang.Compiler.NameResolution — compiled programs and lexical scope

A program's names are resolved by lexical scope exactly when nothing is in the way in any of its functions
(`Undisturbed`): the compiler keeps one map of names for a function, in which a `let` stays after its body,
and looks a callee up among the modules and the functions before the locals.
-/
import LexLang.Compiler.Units

namespace LexLang.Compiler

open LexLang.Ast
open Function List Option

/-! ## The table of functions -/

variable {name : String} {fnId : Nat}

theorem functionTable_cases (i : Nat) (decls : List FnDecl) (names : String → Option Nat)
    (h : functionTable i decls names name = some fnId) : fnId < i + decls.length ∨ names name = some fnId := by
  induction decls generalizing i names with
  | nil => exact .inr h
  | cons decl decls ih =>
    rw [length_cons]
    rcases ih (i + 1) _ h with hlt | hold
    · left
      omega
    · by_cases hname : name = decl.name
      · subst hname
        rw [update_self] at hold
        cases hold
        left
        omega
      · rw [update_of_ne hname] at hold
        exact .inr hold

theorem functionTable_some (i : Nat) (decls : List FnDecl) (names : String → Option Nat)
    (h : (names name).isSome ∨ ∃ decl ∈ decls, decl.name = name) : (functionTable i decls names name).isSome := by
  induction decls generalizing i names with
  | nil => simpa [functionTable] using h
  | cons decl decls ih =>
    apply ih
    by_cases hname : name = decl.name
    · subst hname
      simp
    · rw [update_of_ne hname]
      refine h.imp_right ?_
      rintro ⟨decl', hmem, rfl⟩
      rcases mem_cons.mp hmem with rfl | hmem
      · exact absurd rfl hname
      · exact ⟨decl', hmem, rfl⟩

variable {u : FnCompiler}

section Program

variable {stages : List Stage}

theorem functionNames_lt (h : (globals stages).functionNames name = some fnId) : fnId < (fnDecls stages).length := by
  rcases functionTable_cases 0 (fnDecls stages) _ h with hlt | hnone
  · omega
  · cases hnone

theorem declId_lt {decl : FnDecl} (h : decl ∈ fnDecls stages) :
    ((globals stages).functionNames decl.name).getD 0 < (fnDecls stages).length := by
  have hsome : ((globals stages).functionNames decl.name).isSome :=
    functionTable_some 0 (fnDecls stages) _ (.inr ⟨decl, h, rfl⟩)
  obtain ⟨fnId, hid⟩ := isSome_iff_exists.mp hsome
  rw [hid, getD_some]
  exact functionNames_lt hid

/-! ## The frame on entry -/

/-- What is known when a frame is entered. -/
def known (entries : List (String × Owner)) : Given := fun slot =>
  match entries[slot]? with
  | some (_, .binder b) => some b
  | _ => none

theorem known_eq_some_iff {entries : List (String × Owner)} {slot : Nat} {b : Binder} :
    known entries slot = some b ↔ ∃ name, entries[slot]? = some (name, .binder b) := by
  rw [known]
  split
  · next name b' h => simp [h]
  · next h =>
    refine ⟨fun h' => (by cases h'), ?_⟩
    rintro ⟨name, h'⟩
    exact absurd h' (h name b)

theorem entryLocals_some (i : Nat) (entries : List (String × Owner)) (locals : String → Option Local)
    {x : String} {l : Local} (h : entryLocals i entries locals x = some l) :
    (∃ j, entries[j]? = some (x, l.owner) ∧ l.slot = i + j) ∨ locals x = some l := by
  induction entries generalizing i locals with
  | nil => exact .inr h
  | cons entry entries ih =>
    obtain ⟨name, owner⟩ := entry
    rcases ih (i + 1) _ h with ⟨j, hj, hslot⟩ | hold
    · exact .inl ⟨j + 1, hj, by omega⟩
    · by_cases hx : x = name
      · subst hx
        rw [update_self] at hold
        cases hold
        exact .inl ⟨0, rfl, rfl⟩
      · rw [update_of_ne hx] at hold
        exact .inr hold

theorem sound_start (E : Nat → Option (List (String × Owner))) (fnId : Nat)
    (entries : List (String × Owner)) (pending : List PendingLambda) (functions : Nat) :
    Sound E (.start fnId entries pending functions) fun _ => known entries where
  inside := fun pc op hop => by cases hop
  carried := fun pc op hop => by cases hop
  slots := by
    intro x l hl
    rcases entryLocals_some 0 entries _ hl with ⟨j, hj, hslot⟩ | hnone
    · show l.slot < entries.length
      rw [hslot, Nat.zero_add]
      exact (List.getElem?_eq_some_iff.mp hj).1
    · cases hnone
  known := by
    intro x l b hl hb
    rcases entryLocals_some 0 entries _ hl with ⟨j, hj, hslot⟩ | hnone
    · rw [hslot, Nat.zero_add, known_eq_some_iff]
      exact ⟨x, hb ▸ hj⟩
    · cases hnone
  refs := fun r hr => absurd hr not_mem_nil
  closures := fun pc fnId count hop => by cases hop

/-- Along a whole body, from what is known on entry. -/
theorem sound_compileBody {G : Globals} {E : Nat → Option (List (String × Owner))} (hE : NamedApart G E)
    (body : CExpr) (scope : Scope) (fnId : Nat) (entries : List (String × Owner))
    (pending : List PendingLambda) (functions : Nat)
    (hlisted : Listed E (compileBody G body scope (.start fnId entries pending functions))) :
    ∃ T, Sound E (compileBody G body scope (.start fnId entries pending functions)) T ∧ T 0 = known entries := by
  have htracks : Tracks E 0 (.start fnId entries pending functions)
      (compileBody G body scope (.start fnId entries pending functions)) :=
    (compileExpr_tracks hE body scope true _ 0 (Nat.zero_le _) hlisted).emit .return trivial
  obtain ⟨T, hT, hsame, _⟩ := htracks.run _ (sound_start E fnId entries pending functions)
  exact ⟨T, hT, hsame 0 (Nat.zero_le _)⟩

theorem getElem?_paramEntries (fnId : Nat) : ∀ (i j : Nat) (params : List String) {p : String × Binder},
    (paramEntries fnId i params)[j]? = some p → p.2 = ⟨fnId, .entry (i + j)⟩
  | _, _, [], _, h => by cases h
  | i, 0, _ :: _, _, h => by
    cases h
    rfl
  | i, j + 1, _ :: params, _, h => by
    rw [getElem?_paramEntries fnId (i + 1) j params h, Nat.add_assoc, Nat.add_comm 1 j]

theorem getElem?_ownedBy_paramEntries {i j : Nat} {params : List String} {b : Binder}
    (h : (ownedBy (paramEntries fnId i params))[j]? = some (name, .binder b)) : b = ⟨fnId, .entry (i + j)⟩ := by
  rw [ownedBy, getElem?_map] at h
  obtain ⟨p, hp, heq⟩ := map_eq_some_iff.mp h
  cases heq
  exact getElem?_paramEntries fnId i j params hp

/-! ## Runs -/

/-- The lambdas of a program, in the order they are compiled. -/
def lambdasOf (stages : List Stage) : List PendingLambda :=
  let queue := queueAfter (globals stages) (fnDecls stages) [] (fnDecls stages).length
  takenLambdas (globals stages) queue.1 queue.2

/-- The captures of a lambda, by its id. -/
def capturesOf (stages : List Stage) (fnId : Nat) : Option (List (String × Owner)) :=
  ((lambdasOf stages).find? fun pl => pl.fnId == fnId).map PendingLambda.captures

theorem waiting_nil (functions : Nat) : Waiting [] functions :=
  ⟨fun _ h => absurd h not_mem_nil, fun _ h => absurd h not_mem_nil, List.Pairwise.nil⟩

theorem waiting_lambdas (stages : List Stage) :
    let queue := queueAfter (globals stages) (fnDecls stages) [] (fnDecls stages).length
    Waiting queue.1 queue.2 ∧ (∀ pl ∈ queue.1, (fnDecls stages).length ≤ pl.fnId) ∧
      (fnDecls stages).length ≤ queue.2 :=
  waiting_queueAfter _ _ _ (waiting_nil _) (fun _ h => absurd h not_mem_nil) le_rfl
    fun _ hdecl => declId_lt hdecl

theorem le_of_mem_lambdasOf {pl : PendingLambda} (h : pl ∈ lambdasOf stages) : (fnDecls stages).length ≤ pl.fnId := by
  obtain ⟨_, hold, hnew⟩ := waiting_lambdas stages
  rcases takenLambdas_fresh _ _ pl h with hqueue | hfresh
  · exact hold pl hqueue
  · exact hnew.trans hfresh

theorem capturesOf_of_mem {pl : PendingLambda} (h : pl ∈ lambdasOf stages) :
    capturesOf stages pl.fnId = some pl.captures := by
  have hdistinct : (lambdasOf stages).Pairwise fun pl pl' => pl.fnId ≠ pl'.fnId :=
    takenLambdas_distinct _ _ (waiting_lambdas stages).1
  rw [capturesOf]
  generalize lambdasOf stages = taken at h hdistinct
  induction taken with
  | nil => cases h
  | cons pl' taken ih =>
    rw [find?_cons]
    rcases mem_cons.mp h with rfl | h
    · simp
    · rw [beq_false_of_ne ((pairwise_cons.mp hdistinct).1 pl h)]
      exact ih h (pairwise_cons.mp hdistinct).2

theorem capturesOf_some {captures : List (String × Owner)} (h : capturesOf stages fnId = some captures) :
    ∃ pl ∈ lambdasOf stages, pl.fnId = fnId ∧ pl.captures = captures := by
  obtain ⟨pl, hfind, rfl⟩ := map_eq_some_iff.mp h
  exact ⟨pl, mem_of_find?_eq_some hfind, by simpa using find?_some hfind, rfl⟩

theorem capturesOf_of_lt (h : fnId < (fnDecls stages).length) : capturesOf stages fnId = none := by
  cases hcaptures : capturesOf stages fnId with
  | none => rfl
  | some captures =>
    obtain ⟨pl, hpl, rfl, _⟩ := capturesOf_some hcaptures
    have := le_of_mem_lambdasOf hpl
    omega

theorem namedApart (stages : List Stage) : NamedApart (globals stages) (capturesOf stages) :=
  fun _ _ h => capturesOf_of_lt (functionNames_lt h)

/-- The functions that are compiled. -/
def unitsOf (stages : List Stage) : List FnCompiler :=
  compileFns (globals stages) (fnDecls stages) [] (fnDecls stages).length

theorem unitOf_unitsOf : ∀ u ∈ unitsOf stages, UnitOf (globals stages) (fnDecls stages) (lambdasOf stages) u :=
  unitOf_compileFns _ _ _ _ _ (fun _ => id) fun _ => id

/-- What the frame of a function holds on entry, by whether its id is a lambda's. -/
theorem entries_cases (hu : u ∈ unitsOf stages) :
    (capturesOf stages u.fnId = none ∧ ∃ params, u.entries = ownedBy (paramEntries u.fnId 0 params)) ∨
    ∃ captures, capturesOf stages u.fnId = some captures ∧ ∃ params,
      u.entries = captures ++ ownedBy (paramEntries u.fnId captures.length params) := by
  obtain ⟨_, body, scope, fnId, entries, pending, functions, rfl, hkind⟩ := unitOf_unitsOf u hu
  have hemitted := compileBody_emitted (G := globals stages) body scope
    (.start fnId entries pending functions)
  rw [hemitted.fnId, hemitted.entries]
  rcases hkind with ⟨decl, hdecl, rfl, rfl⟩ | ⟨pl, hpl, rfl, rfl⟩
  · exact .inl ⟨capturesOf_of_lt (declId_lt hdecl), declParams decl, rfl⟩
  · exact .inr ⟨pl.captures, capturesOf_of_mem hpl, pl.params, rfl⟩

/-- An assignment for each function. -/
theorem exists_sound (stages : List Stage) : ∃ T : FnCompiler → Nat → Given, ∀ u ∈ unitsOf stages,
    Sound (capturesOf stages) u (T u) ∧ T u 0 = known u.entries := by
  have hsound : ∀ u ∈ unitsOf stages, ∃ T, Sound (capturesOf stages) u T ∧ T 0 = known u.entries := by
    intro u hu
    obtain ⟨hlisted, body, scope, fnId, entries, pending, functions, rfl, _⟩ := unitOf_unitsOf u hu
    have hentries := (compileBody_emitted (G := globals stages) body scope
      (.start fnId entries pending functions)).entries
    rw [hentries]
    exact sound_compileBody (namedApart stages) body scope fnId entries pending functions
      fun pl hpl => capturesOf_of_mem (hlisted pl hpl)
  choose! T hT using hsound
  exact ⟨T, hT⟩

theorem known_within_entered (hu : u ∈ unitsOf stages)
    (hE : capturesOf stages u.fnId = none) : (known u.entries).Within (entered u) := by
  rcases entries_cases hu with ⟨_, params, hentries⟩ | ⟨captures, hsome, _⟩
  · intro slot b hb
    obtain ⟨name, hget⟩ := known_eq_some_iff.mp hb
    rw [entered, if_pos (List.getElem?_eq_some_iff.mp hget).1]
    rw [hentries] at hget
    rw [getElem?_ownedBy_paramEntries hget, Nat.zero_add]
  · rw [hE] at hsome
    cases hsome

/-- The frame of a closure holds what its captures were given. -/
theorem known_within_enteredWith {v : FnCompiler} (hv : v ∈ unitsOf stages) {code : List Op}
    {T : Nat → Given} {pc count : Nat} {σ : Given}
    (hmade : WellMade (capturesOf stages) code T pc v.fnId count) (hσ : (T pc).Within σ) :
    (known v.entries).Within (enteredWith code pc count σ v) := by
  rw [WellMade] at hmade
  rcases entries_cases hv with ⟨hnone, _⟩ | ⟨captures, hsome, params, hentries⟩
  · rw [hnone] at hmade
    subst hmade
    exact known_within_entered hv hnone
  · rw [hsome] at hmade
    obtain ⟨hlength, hloads⟩ := hmade
    intro slot b hb
    obtain ⟨name, hget⟩ := known_eq_some_iff.mp hb
    have hlt := (List.getElem?_eq_some_iff.mp hget).1
    rw [hentries] at hget
    rw [enteredWith]
    split
    · next hslot =>
      rw [getElem?_append_left (by omega)] at hget
      obtain ⟨source, hload, hknown⟩ := hloads slot name b hget
      rw [hload]
      exact hσ source b hknown
    · next hslot =>
      rw [getElem?_append_right (by omega)] at hget
      have hslot : captures.length + (slot - captures.length) = slot := by omega
      rw [entered, if_pos hlt, getElem?_ownedBy_paramEntries hget, hslot]

/-- **Along every run what is known is so.** -/
theorem within_of_reaches {T : FnCompiler → Nat → Given}
    (hT : ∀ u ∈ unitsOf stages, Sound (capturesOf stages) u (T u) ∧ T u 0 = known u.entries) {pc : Nat} {σ : Given}
    (h : Reaches (globals stages) (unitsOf stages) u pc σ) : u ∈ unitsOf stages ∧ (T u pc).Within σ := by
  induction h with
  | call hu hname =>
    refine ⟨hu, ?_⟩
    rw [(hT _ hu).2]
    exact known_within_entered hu (namedApart stages _ _ hname)
  | step _ hop hpc' ih =>
    obtain ⟨hu, hwithin⟩ := ih
    exact ⟨hu, ((hT _ hu).1.carried _ _ hop _ hpc').trans (Op.give_within _ _ _ hwithin)⟩
  | closure _ hop hv ih =>
    obtain ⟨hu, hwithin⟩ := ih
    refine ⟨hv, ?_⟩
    rw [(hT _ hv).2]
    exact known_within_enteredWith hv ((hT _ hu).1.closures _ _ _ hop) hwithin

end Program

/-! ## Resolution -/

/-- **A name is resolved by lexical scope**: the code takes it for what it is there, and where that is a
binder, the slot that is read holds the value that this binder was given, in every run. -/
def Ref.Resolved (G : Globals) (units : List FnCompiler) (u : FnCompiler) (r : Ref) : Prop :=
  r.Lexical ∧
    match r.denotes with
    | .binder b => ∃ slot, u.code[r.pc]? = some (.loadLocal slot) ∧
        ∀ σ, Reaches G units u r.pc σ → σ slot = some b
    | .function fnId => ∃ op, u.code[r.pc]? = some op ∧
        (op = .makeClosure fnId 0 ∨ ∃ arity, op = .call fnId arity ∨ op = .tailCall fnId arity)
    | .todo => u.code[r.pc]? = some (.panic "todo() reached")
    -- no name is a temporary by lexical scope
    | .temporary => True
    | .module _ => True

theorem resolved_of_lexical {stages : List Stage} (hu : u ∈ unitsOf stages) {r : Ref}
    (hr : r ∈ u.refs) (hlexical : r.Lexical) : r.Resolved (globals stages) (unitsOf stages) u := by
  obtain ⟨T, hT⟩ := exists_sound stages
  refine ⟨hlexical, ?_⟩
  have hwitnessed := (hT u hu).1.refs r hr
  rw [Witnessed] at hwitnessed
  cases hdenotes : r.denotes with
  | binder b =>
    rw [hdenotes] at hwitnessed
    obtain ⟨slot, hload, hknown⟩ := hwitnessed
    exact ⟨slot, hload, fun σ hσ => (within_of_reaches hT hσ).2 slot b hknown⟩
  | function | todo =>
    rw [hdenotes] at hwitnessed
    exact hwitnessed
  | temporary | module => trivial

instance (r : Ref) : Decidable r.Lexical := inferInstanceAs (Decidable (_ = _))

theorem compileProgram_some {stages : List Stage} {units : List FnCompiler} (h : compileProgram stages = some units) :
    units = unitsOf stages ∧ ∀ u ∈ unitsOf stages, u.panicked = false := by
  rw [compileProgram] at h
  split at h
  · cases h
  · next hany =>
    cases h
    refine ⟨rfl, fun u hu => ?_⟩
    by_contra hpanicked
    exact hany (any_eq_true.mpr ⟨u, hu, by simpa using hpanicked⟩)

def unaryFn (body : CExpr) : List Stage :=
  [.fnDecl
    { name := "f", typeParams := [], params := [("x", .named "Int" [])], effects := [],
      effectRowVar := none, returnType := .named "Int" [], body, examples := [], doc := [] }]

end LexLang.Compiler
