/-
# LexLang.Compiler.Resolution — names taken for the binders that lexical scope gives them

A map of names and a lexical environment agree on a name when the name is in both, for the same
binder, or in neither.
-/
import LexLang.Compiler.Program

namespace LexLang.Compiler

open LexLang.Ast
open Function List Option

/-! ## Agreement -/

def Scope.names (scope : Scope) : Set String := {x | x ∈ scope.map Prod.fst}

/-- The map has the name for the binder it has in the lexical environment. -/
def Agrees (locals : String → Option Local) (scope : Scope) (x : String) : Prop :=
  (locals x).map Local.owner = (scope.lookup x).map Owner.binder

/-- The binders in scope have stored their values before. -/
def Old (scope : Scope) (fc : FnCompiler) : Prop :=
  ∀ p ∈ scope, p.2.fnId = fc.fnId → ∀ pc, p.2.site = .store pc → pc < fc.pc

/-- The name is taken for what it is by lexical scope. -/
def Ref.Lexical (r : Ref) : Prop := r.lexical = some r.denotes

/-- What the frame of a lambda holds on entry. -/
def PendingLambda.entries (pl : PendingLambda) : List (String × Owner) :=
  pl.captures ++ ownedBy (paramEntries pl.fnId pl.captures.length pl.params)

/-- The lexical environment of a lambda's body. -/
def PendingLambda.inside (pl : PendingLambda) : Scope :=
  (paramEntries pl.fnId pl.captures.length pl.params).reverse ++ pl.scope

/-- Compiled from its captures, the body of the lambda finds every name where lexical scope has it. -/
def PendingLambda.Fine (G : Globals) (pl : PendingLambda) : Prop :=
  Undisturbed G pl.inside.names pl.body ∧
    ∀ x ∈ reads G pl.body, Agrees (entryLocals 0 pl.entries fun _ => none) pl.inside x

/-- All that was resolved is right, and all that is queued will be. -/
def Rightly (G : Globals) (fc : FnCompiler) : Prop :=
  (∀ r ∈ fc.refs, r.Lexical) ∧ ∀ pl ∈ fc.pendingLambdas, pl.Fine G

variable {x : String}

theorem mem_of_lookup {β : Type} {l : List (String × β)} {b : β} (h : l.lookup x = some b) : (x, b) ∈ l := by
  induction l with
  | nil => simp at h
  | cons p l ih =>
    obtain ⟨y, c⟩ := p
    rw [lookup_cons] at h
    split at h
    · next heq =>
      cases h
      rw [beq_iff_eq.mp heq]
      exact mem_cons_self
    · exact mem_cons_of_mem _ (ih h)

theorem lookup_eq_none_iff {β : Type} {l : List (String × β)} :
    l.lookup x = none ↔ x ∉ l.map Prod.fst := by
  induction l with
  | nil => simp
  | cons p l ih =>
    obtain ⟨y, c⟩ := p
    rw [lookup_cons, map_cons, mem_cons, not_or, ← ih]
    split
    · next heq => simp [beq_iff_eq.mp heq]
    · next heq => simp_all

theorem lookup_append {β : Type} (l l' : List (String × β)) (x : String) :
    (l ++ l').lookup x = (l.lookup x).or (l'.lookup x) := by
  induction l with
  | nil => rfl
  | cons p l ih =>
    obtain ⟨y, c⟩ := p
    rw [cons_append, lookup_cons, lookup_cons]
    split
    · rfl
    · exact ih

theorem notMem_names_iff {scope : Scope} : x ∉ scope.names ↔ scope.lookup x = none :=
  lookup_eq_none_iff.symm

/-! ## After an expression -/

section After

variable {scope : Scope} {names : List String} {count : Nat} {fc fc' : FnCompiler}

theorem Old.mono (h : Old scope fc) (hid : fc'.fnId = fc.fnId) (hpc : fc.pc ≤ fc'.pc) : Old scope fc' := by
  intro p hp hfn pc hsite
  have := h p hp (hfn.trans hid) pc hsite
  omega

theorem Emitted.old (h : Emitted scope names count fc fc') (ho : Old scope fc) : Old scope fc' :=
  ho.mono h.fnId h.pc

/-- A name that was left behind is not the one in scope. -/
theorem Local.After.not_agrees {locals : String → Option Local} {l : Local}
    (h : l.After fc) (ho : Old scope fc) (hx : locals x = some l) : ¬ Agrees locals scope x := by
  intro hagree
  rw [Agrees, hx, map_some] at hagree
  obtain ⟨b, hb, howner⟩ := map_eq_some_iff.mp hagree.symm
  obtain ⟨hfn, pc, hle, hsite⟩ := h.2 b howner.symm
  have := ho _ (mem_of_lookup hb) hfn pc hsite
  omega

/-- **What the next expression finds**: a name is where it was unless it was left behind. -/
theorem Emitted.agrees_iff (h : Emitted scope names count fc fc') (ho : Old scope fc) (looked : List String) :
    (∀ x ∈ looked, Agrees fc'.locals scope x) ↔ Apart names looked ∧ ∀ x ∈ looked, Agrees fc.locals scope x := by
  constructor
  · intro hagree
    have hapart : Apart names looked := by
      intro x hx hleft
      obtain ⟨l, hl, hafter⟩ := h.left x hleft
      exact hafter.not_agrees ho hl (hagree x hx)
    refine ⟨hapart, fun x hx => ?_⟩
    have := hagree x hx
    rwa [Agrees, h.kept x (hapart x hx)] at this
  · rintro ⟨hapart, hagree⟩ x hx
    have := hagree x hx
    rwa [Agrees, ← h.kept x (hapart x hx)] at this

end After

/-! ## Variables -/

section Variables

variable {G : Globals} {scope : Scope} {fc : FnCompiler} {name : String}

theorem rightly_note_iff {lexical : Option Denotation} {denotes : Denotation} :
    Rightly G (fc.note name lexical denotes) ↔ lexical = some denotes ∧ Rightly G fc := by
  simp only [Rightly, FnCompiler.note, forall_mem_cons, Ref.Lexical, and_assoc]

theorem value_eq_owner_iff {l : Local} (h : fc.locals name = some l) :
    scope.value G name = some l.owner.denotes ↔ Agrees fc.locals scope name := by
  rw [Agrees, h, map_some, Scope.value, Scope.local?]
  cases l.owner <;> cases scope.lookup name <;> cases G.functionNames name <;>
    simp [Owner.denotes, eq_comm]

theorem callee_eq_owner_iff {l : Local} (h : fc.locals name = some l) :
    scope.callee G name = some l.owner.denotes ↔ Agrees fc.locals scope name := by
  rw [← value_eq_owner_iff (G := G) h, Scope.callee]
  cases scope.value G name <;> cases l.owner <;> simp [Owner.denotes]

theorem value_eq_function_iff {fnId : Nat} (h : G.functionNames name = some fnId) :
    scope.value G name = some (.function fnId) ↔ scope.lookup name = none := by
  rw [Scope.value, Scope.local?, h]
  cases scope.lookup name <;> simp

theorem callee_eq_function_iff {fnId : Nat} (h : G.functionNames name = some fnId) :
    scope.callee G name = some (.function fnId) ↔ scope.lookup name = none := by
  rw [Scope.callee, Scope.value, Scope.local?, h]
  cases scope.lookup name <;> simp

theorem callee_eq_todo_iff (h : G.functionNames name = none) (htodo : name = "todo") :
    scope.callee G name = some .todo ↔ scope.lookup name = none := by
  rw [Scope.callee, Scope.value, Scope.local?, h]
  cases scope.lookup name <;> simp [htodo]

theorem qualifier_eq_module_iff {module : String} (h : G.moduleAliases name = some module) :
    scope.qualifier G name = some (.module module) ↔ scope.lookup name = none := by
  rw [Scope.qualifier, Scope.local?, h]
  cases scope.lookup name <;> simp

theorem rightly_compileVar_iff (hp : (fc.compileVar G scope name).panicked = false) :
    Rightly G (fc.compileVar G scope name) ↔ Rightly G fc ∧ Agrees fc.locals scope name := by
  unfold FnCompiler.compileVar at hp ⊢
  split
  · next l hl =>
    show Rightly G (fc.note _ _ _) ↔ _
    rw [rightly_note_iff, value_eq_owner_iff hl, and_comm]
  · next hl =>
    have hagree : Agrees fc.locals scope name ↔ scope.lookup name = none := by
      rw [Agrees, hl]
      cases scope.lookup name <;> simp
    cases hf : G.functionNames name with
    | some fnId =>
      show Rightly G (fc.note _ _ _) ↔ _
      rw [rightly_note_iff, value_eq_function_iff hf, hagree, and_comm]
    | none =>
      rw [hl, hf] at hp
      simp [FnCompiler.panic] at hp

theorem rightly_compileCallee_iff (hp : (fc.compileCallee G scope name).panicked = false) :
    Rightly G (fc.compileCallee G scope name) ↔ Rightly G fc ∧ Agrees fc.locals scope name := by
  unfold FnCompiler.compileCallee at hp ⊢
  split
  · next l hl =>
    show Rightly G (fc.note _ _ _) ↔ _
    rw [rightly_note_iff, callee_eq_owner_iff hl, and_comm]
  · next hl =>
    rw [hl] at hp
    exact rightly_compileVar_iff hp

theorem callForm_module {callee : CExpr} {module op : String}
    (h : G.callForm callee = .module name module op) : G.moduleAliases name = some module := by
  unfold Globals.callForm at h
  split at h
  · split at h
    · next hm =>
      cases h
      exact hm
    · cases h
  · split at h
    · cases h
    · split at h <;> cases h
  · cases h

theorem callForm_function {callee : CExpr} {fnId : Nat} (h : G.callForm callee = .function name fnId) :
    G.functionNames name = some fnId := by
  unfold Globals.callForm at h
  split at h
  · split at h <;> cases h
  · split at h
    · next hf =>
      cases h
      exact hf
    · split at h <;> cases h
  · cases h

theorem callForm_todo {callee : CExpr} (h : G.callForm callee = .todo name) :
    G.functionNames name = none ∧ name = "todo" := by
  unfold Globals.callForm at h
  split at h
  · split at h <;> cases h
  · split at h
    · cases h
    · next hf =>
      split at h
      · next hname =>
        cases h
        exact ⟨hf, hname⟩
      · cases h
  · cases h

end Variables

/-! ## The frame on entry -/

theorem entryLocals_owner (i : Nat) (entries : List (String × Owner)) (locals : String → Option Local) (x : String) :
    (entryLocals i entries locals x).map Local.owner =
      (entries.reverse.lookup x).or ((locals x).map Local.owner) := by
  induction entries generalizing i locals with
  | nil => rfl
  | cons entry entries ih =>
    obtain ⟨name, owner⟩ := entry
    rw [entryLocals, ih, reverse_cons, lookup_append, Option.or_assoc]
    congr 1
    by_cases hx : x = name
    · subst hx
      simp
    · rw [update_of_ne hx, lookup_cons, beq_eq_false_iff_ne.mpr hx]
      simp

theorem lookup_map_binder (binders : List (String × Binder)) (x : String) :
    (ownedBy binders).lookup x = (binders.lookup x).map Owner.binder := by
  induction binders with
  | nil => rfl
  | cons p binders ih =>
    obtain ⟨y, b⟩ := p
    show ((y, Owner.binder b) :: ownedBy binders).lookup x = _
    rw [lookup_cons, lookup_cons, ih]
    cases x == y <;> rfl

theorem map_fst_paramEntries (fnId i : Nat) (params : List String) :
    (paramEntries fnId i params).map Prod.fst = params := by
  induction params generalizing i with
  | nil => rfl
  | cons name params ih => simp [paramEntries, ih]

/-! ## Free variables -/

section FreeVars

variable (G : Globals)

mutual

/-- What an expression looks up is free in it. -/
theorem mem_freeVars : ∀ (e : CExpr) (bound out : List String) (x : String),
    (x ∈ out ∨ x ∈ reads G e ∧ x ∉ bound) → x ∈ freeVars e bound out
  | .literal _, _, _, _, h => by simpa [freeVars, reads] using h
  | .var name, bound, out, x, h => by
    rw [freeVars]
    rw [reads, mem_singleton] at h
    split
    · next hin =>
      rcases h with h | ⟨rfl, hx⟩
      · exact h
      · exact hin.resolve_left hx
    · rcases h with h | ⟨rfl, _⟩
      · exact mem_append_left _ h
      · simp
  | .letE name _ value body, bound, out, x, h => by
    rw [freeVars]
    rw [reads, mem_append, mem_filter] at h
    apply mem_freeVars body
    have hval := mem_freeVars value bound out x
    by_cases hbody : x ∈ reads G body ∧ x ∉ name :: bound
    · exact .inr hbody
    · left
      apply hval
      simp only [mem_cons, not_or, decide_eq_true_eq] at h hbody
      tauto
  | .block statements result, bound, out, x, h => by
    rw [freeVars]
    rw [reads, mem_append] at h
    apply mem_freeVars result
    have := mem_freeVarsAll statements bound out x
    tauto
  | .call callee args, bound, out, x, h => by
    rw [freeVars]
    apply mem_freeVarsAll args
    have hcallee := mem_freeVars callee bound out x
    by_cases hargs : x ∈ readsAll G args ∧ x ∉ bound
    · exact .inr hargs
    · left
      apply hcallee
      rcases h with h | ⟨h, hx⟩
      · exact .inl h
      · right
        refine ⟨?_, hx⟩
        rw [reads] at h
        have hargs' : x ∉ readsAll G args := fun hin => hargs ⟨hin, hx⟩
        cases hform : G.callForm callee with
        | module name module op =>
          rw [hform] at h
          dsimp only at h
          split at h
          · exact absurd (readsInline_subset _ _ x h) hargs'
          · exact absurd h hargs'
        | function name fnId =>
          rw [hform] at h
          exact absurd h hargs'
        | todo name =>
          rw [hform] at h
          simp at h
        | named name =>
          rw [hform] at h
          rcases mem_cons.mp h with rfl | h
          · unfold Globals.callForm at hform
            split at hform
            · split at hform <;> cases hform
            · split at hform
              · cases hform
              · split at hform
                · cases hform
                · cases hform
                  simp [reads]
            · cases hform
          · exact absurd h hargs'
        | value =>
          rw [hform] at h
          exact (mem_append.mp h).resolve_right hargs'
  | .constructor _ args, bound, out, x, h => mem_freeVarsAll args bound out x h
  | .matchE scrutinee arms, bound, out, x, h => by
    rw [freeVars]
    rw [reads, mem_append] at h
    apply mem_freeVarsArms arms
    have := mem_freeVars scrutinee bound out x
    tauto
  | .recordLit fields, bound, out, x, h => mem_freeVarsFields fields bound out x h
  | .tupleLit items, bound, out, x, h => mem_freeVarsAll items bound out x h
  | .listLit items, bound, out, x, h => mem_freeVarsAll items bound out x h
  | .fieldAccess value _, bound, out, x, h => mem_freeVars value bound out x h
  | .lambda params _ _ _ body, bound, out, x, h => by
    rw [freeVars]
    apply mem_freeVars body
    rw [reads, mem_filter] at h
    simp only [mem_append, not_or, decide_eq_true_eq] at h ⊢
    tauto
  | .binOp _ lhs rhs, bound, out, x, h => by
    rw [freeVars]
    rw [reads, mem_append] at h
    apply mem_freeVars rhs
    have := mem_freeVars lhs bound out x
    tauto
  | .unaryOp _ expr, bound, out, x, h => mem_freeVars expr bound out x h
  | .returnE value, bound, out, x, h => mem_freeVars value bound out x h

theorem mem_freeVarsAll : ∀ (es : List CExpr) (bound out : List String) (x : String),
    (x ∈ out ∨ x ∈ readsAll G es ∧ x ∉ bound) → x ∈ freeVarsAll es bound out
  | [], _, _, _, h => by simpa [freeVarsAll, readsAll] using h
  | e :: es, bound, out, x, h => by
    rw [freeVarsAll]
    rw [readsAll, mem_append] at h
    apply mem_freeVarsAll es
    have := mem_freeVars e bound out x
    tauto

theorem mem_freeVarsFields : ∀ (fields : List (String × CExpr)) (bound out : List String) (x : String),
    (x ∈ out ∨ x ∈ readsFields G fields ∧ x ∉ bound) → x ∈ freeVarsFields fields bound out
  | [], _, _, _, h => by simpa [freeVarsFields, readsFields] using h
  | (_, e) :: fields, bound, out, x, h => by
    rw [freeVarsFields]
    rw [readsFields, mem_append] at h
    apply mem_freeVarsFields fields
    have := mem_freeVars e bound out x
    tauto

theorem mem_freeVarsArms : ∀ (arms : List (Pattern × CExpr)) (bound out : List String) (x : String),
    (x ∈ out ∨ x ∈ readsArms G arms ∧ x ∉ bound) → x ∈ freeVarsArms arms bound out
  | [], _, _, _, h => by simpa [freeVarsArms, readsArms] using h
  | (p, body) :: arms, bound, out, x, h => by
    rw [freeVarsArms]
    rw [readsArms, mem_append, mem_filter] at h
    apply mem_freeVarsArms arms
    have hbody := mem_freeVars body (patternBinders p ++ bound) out x
    simp only [mem_append, not_or, decide_eq_true_eq] at h hbody
    tauto

theorem readsInline_subset : ∀ (template : Template) (es : List CExpr) (x : String),
    x ∈ readsInline G template es → x ∈ readsAll G es
  | [], _, _, h => by
    rw [readsInline] at h
    cases h
  | _ :: _, [], _, h => by
    rw [readsInline] at h
    cases h
  | _ :: template, e :: es, x, h => by
    rw [readsInline, mem_append] at h
    rw [readsAll, mem_append]
    exact h.imp_right (readsInline_subset template es x)

end

end FreeVars

/-! ## Patterns -/

mutual

theorem mem_patternBinders_iff : ∀ (p : Pattern) (x : String),
    x ∈ patternBinders p ↔ (x, true) ∈ slotNames p
  | .pWild, _ | .pVar _, _ | .pLiteral _, _ => by simp [patternBinders, slotNames]
  | .pConstructor _ [], _ => by simp [patternBinders, patternsBinders, slotNames]
  | .pConstructor _ [arg], x => by
    simp [patternBinders, patternsBinders, slotNames, mem_patternBinders_iff arg x]
  | .pConstructor _ (p :: p' :: ps), x => by
    simp [patternBinders, slotNames, mem_patternsBinders_iff (p :: p' :: ps) x]
  | .pRecord fields, x => by simp [patternBinders, slotNames, mem_patternFieldsBinders_iff fields x]
  | .pTuple items, x => by simp [patternBinders, slotNames, mem_patternsBinders_iff items x]

theorem mem_patternsBinders_iff : ∀ (ps : List Pattern) (x : String),
    x ∈ patternsBinders ps ↔ (x, true) ∈ slotNamesAll ps
  | [], _ => by simp [patternsBinders, slotNamesAll]
  | p :: ps, x => by
    simp [patternsBinders, slotNamesAll, mem_patternBinders_iff p x, mem_patternsBinders_iff ps x]

theorem mem_patternFieldsBinders_iff : ∀ (fields : List (String × Pattern)) (x : String),
    x ∈ patternFieldsBinders fields ↔ (x, true) ∈ slotNamesFields fields
  | [], _ => by simp [patternFieldsBinders, slotNamesFields]
  | (_, p) :: fields, x => by
    simp [patternFieldsBinders, slotNamesFields, mem_patternBinders_iff p x, mem_patternFieldsBinders_iff fields x]

end

/-- Where a name is after the test of a pattern, by the last slot handed out under it. -/
def Found (t t' : PatternTest) (x : String) : Option Bool → Prop
  | none => t'.fc.locals x = t.fc.locals x ∧ t'.bindings.lookup x = t.bindings.lookup x
  | some true => ∃ slot b, t'.fc.locals x = some ⟨slot, .binder b⟩ ∧ t'.bindings.lookup x = some b
  | some false => ∃ slot, t'.fc.locals x = some ⟨slot, .temporary⟩

section Patterns

variable {names : List (String × Bool)} {t t' : PatternTest}

variable (h : TestSteps names t t')
include h

theorem TestSteps.found (x : String) : Found t t' x (names.reverse.lookup x) := by
  induction h with
  | refl | emit | testLit | testVariant => exact ⟨rfl, rfl⟩
  | bindVar t name =>
    by_cases hx : x = name
    · subst hx
      simp [Found, PatternTest.bindVar, FnCompiler.bind, FnCompiler.emit, FnCompiler.allocLocal]
    · simp [Found, PatternTest.bindVar, FnCompiler.bind, FnCompiler.emit, FnCompiler.allocLocal,
        lookup_cons, beq_eq_false_iff_ne.mpr hx, update_of_ne hx]
  | bindPart t name =>
    by_cases hx : x = name
    · subst hx
      simp [Found, PatternTest.bindPart, FnCompiler.bind, FnCompiler.emit, FnCompiler.allocLocal]
    · simp [Found, PatternTest.bindPart, FnCompiler.bind, FnCompiler.emit, FnCompiler.allocLocal,
        lookup_cons, beq_eq_false_iff_ne.mpr hx, update_of_ne hx]
  | @trans names names' t t' t'' _ _ ih ih' =>
    rw [reverse_append, lookup_append]
    cases hlast : names'.reverse.lookup x with
    | some v =>
      rw [hlast] at ih'
      cases v <;> exact ih'
    | none =>
      rw [hlast] at ih'
      obtain ⟨hlocals, hbindings⟩ := ih'
      rw [none_or]
      cases hfirst : names.reverse.lookup x with
      | none =>
        rw [hfirst] at ih
        exact ⟨hlocals.trans ih.1, hbindings.trans ih.2⟩
      | some v =>
        rw [hfirst] at ih
        cases v with
        | true =>
          obtain ⟨slot, b, hl, hb⟩ := ih
          exact ⟨slot, b, hlocals.trans hl, hbindings.trans hb⟩
        | false =>
          obtain ⟨slot, hl⟩ := ih
          exact ⟨slot, hlocals.trans hl⟩

theorem TestSteps.names_iff (x : String) :
    x ∈ t'.bindings.map Prod.fst ↔ (x, true) ∈ names ∨ x ∈ t.bindings.map Prod.fst := by
  induction h with
  | refl | emit | testLit | testVariant | bindPart => simp [PatternTest.emit, PatternTest.bindPart,
      PatternTest.testLit, PatternTest.testVariant]
  | bindVar t name => simp [PatternTest.bindVar]
  | trans _ _ ih ih' =>
    rw [ih', ih, mem_append]
    exact or_left_comm.trans or_assoc.symm

theorem TestSteps.old (ht : Old t.bindings t.fc) : Old t'.bindings t'.fc := by
  induction h with
  | refl => exact ht
  | emit t op =>
    have hstep : Emitted [] [] 0 t.fc (t.emit op).fc := emitted_emit op
    exact ht.mono hstep.fnId hstep.pc
  | testLit t value =>
    have hstep : Emitted [] [] 0 t.fc (t.testLit value).fc := emitted_emitAll _
    exact ht.mono hstep.fnId hstep.pc
  | testVariant t name =>
    have hstep : Emitted [] [] 0 t.fc (t.testVariant name).fc := emitted_emitAll _
    exact ht.mono hstep.fnId hstep.pc
  | bindPart t name =>
    have hstep : Emitted [] [name] 0 t.fc (t.bindPart name).fc := emitted_bind name (.inl rfl)
    exact ht.mono hstep.fnId hstep.pc
  | bindVar t name =>
    have hstep : Emitted [] [name] 0 t.fc (t.bindVar name).fc := emitted_bind name (.inr rfl)
    intro p hp
    rcases mem_cons.mp hp with rfl | hp
    · intro _ pc hsite
      cases hsite
      simp [PatternTest.bindVar, FnCompiler.bind, FnCompiler.emit, FnCompiler.allocLocal, FnCompiler.pc]
    · exact ht.mono hstep.fnId hstep.pc p hp
  | trans _ _ ih ih' => exact ih' (ih ht)

/-- The test of a pattern resolves no name and queues no lambda. -/
theorem TestSteps.rightly_iff {G : Globals} : Rightly G t'.fc ↔ Rightly G t.fc := by
  induction h with
  | refl | emit | testLit | testVariant | bindPart | bindVar => exact Iff.rfl
  | trans _ _ ih ih' => exact ih'.trans ih

end Patterns

theorem lookup_reverse_eq_none_iff {β : Type} {l : List (String × β)} :
    l.reverse.lookup x = none ↔ x ∉ l.map Prod.fst := by
  rw [lookup_eq_none_iff, map_reverse, mem_reverse]

/-- **What an arm finds**: its variables unless a temporary hides them, and around it what was there. -/
theorem agrees_arm_iff {p : Pattern} {fc : FnCompiler} {t : PatternTest} (scope : Scope)
    (h : TestSteps (slotNames p) ⟨fc, [], []⟩ t) (looked : List String) :
    (∀ x ∈ looked, Agrees t.fc.locals (t.bindings ++ scope) x) ↔ (∀ x ∈ looked, ¬ Hides p x) ∧
        ∀ x ∈ looked.filter (· ∉ patternBinders p), Agrees fc.locals scope x := by
  have hfound := h.found
  have hvar : ∀ x, x ∈ patternBinders p → (slotNames p).reverse.lookup x ≠ none := by
    intro x hx
    rw [Ne, lookup_reverse_eq_none_iff, not_not]
    exact List.mem_map_of_mem ((mem_patternBinders_iff p x).mp hx)
  have hagree : ∀ x, (slotNames p).reverse.lookup x = none →
      (Agrees t.fc.locals (t.bindings ++ scope) x ↔ Agrees fc.locals scope x) := by
    intro x hx
    have := hfound x
    rw [hx] at this
    rw [Agrees, Agrees, lookup_append, this.1, this.2]
    rfl
  constructor
  · intro hall
    refine ⟨fun x hx hhides => ?_, fun x hx => ?_⟩
    · obtain ⟨slot, hl⟩ := hhides ▸ hfound x
      have := hall x hx
      rw [Agrees, hl] at this
      cases hlook : (t.bindings ++ scope).lookup x <;> simp [hlook] at this
    · rw [mem_filter, decide_eq_true_eq] at hx
      cases hlook : (slotNames p).reverse.lookup x with
      | none => exact (hagree x hlook).mp (hall x hx.1)
      | some v =>
        cases v with
        | true =>
          exact absurd ((mem_patternBinders_iff p x).mpr
            (mem_reverse.mp (mem_of_lookup hlook))) hx.2
        | false =>
          obtain ⟨slot, hl⟩ := hlook ▸ hfound x
          have := hall x hx.1
          rw [Agrees, hl] at this
          cases hlook : (t.bindings ++ scope).lookup x <;> simp [hlook] at this
  · rintro ⟨hhides, hrest⟩ x hx
    cases hlook : (slotNames p).reverse.lookup x with
    | none =>
      refine (hagree x hlook).mpr (hrest x ?_)
      rw [mem_filter, decide_eq_true_eq]
      exact ⟨hx, fun hin => hvar x hin hlook⟩
    | some v =>
      cases v with
      | true =>
        obtain ⟨slot, b, hl, hb⟩ := hlook ▸ hfound x
        rw [Agrees, hl, lookup_append, hb]
        rfl
      | false => exact absurd hlook (hhides x hx)

/-! ## Lambdas -/

theorem lookup_captures (fc : FnCompiler) (frees : List String) (x : String) :
    ((frees.filterMap fun name => (fc.locals name).map (name, ·)).map fun c => (c.1, c.2.owner)).reverse.lookup x =
      if x ∈ frees then (fc.locals x).map Local.owner else none := by
  induction frees with
  | nil => rfl
  | cons name frees ih =>
    rw [filterMap_cons]
    cases hl : fc.locals name with
    | none =>
      simp only [map_none]
      rw [ih]
      by_cases hx : x = name
      · subst hx
        simp [hl]
      · simp [hx]
    | some l =>
      simp only [map_some, map_cons, reverse_cons]
      rw [lookup_append, ih]
      by_cases hx : x = name
      · subst hx
        by_cases hin : x ∈ frees <;> simp [hin, hl]
      · rw [lookup_cons, beq_eq_false_iff_ne.mpr hx]
        simp [hx]

theorem names_reverse (params : Scope) (scope : Scope) :
    Scope.names (params.reverse ++ scope) = {x | x ∈ params.map Prod.fst} ∪ scope.names := by
  ext x
  simp [Scope.names]

/-- **What the body of a lambda finds**: its parameters, and around them what is there where it stands. -/
theorem fine_iff (G : Globals) (scope : Scope) (params : List String) (body : CExpr) (fc : FnCompiler) :
    PendingLambda.Fine G
        { fnId := fc.functions
          captures := (fc.captures params body).map fun c => (c.1, c.2.owner)
          params, body, scope } ↔
      Undisturbed G ({x | x ∈ params} ∪ scope.names) body ∧
        ∀ x ∈ (reads G body).filter (· ∉ params), Agrees fc.locals scope x := by
  rw [PendingLambda.Fine, PendingLambda.inside, PendingLambda.entries]
  dsimp only
  generalize (List.map _ (fc.captures params body)).length = k
  rw [names_reverse, map_fst_paramEntries]
  have hagree : ∀ x ∈ reads G body,
      (Agrees (entryLocals 0 (((fc.captures params body).map fun c => (c.1, c.2.owner)) ++
          ownedBy (paramEntries fc.functions k params)) fun _ => none)
        ((paramEntries fc.functions k params).reverse ++ scope) x ↔
      (x ∉ params → Agrees fc.locals scope x)) := by
    intro x hx
    have hparam : ((paramEntries fc.functions k params).reverse.lookup x = none) ↔ x ∉ params := by
      rw [lookup_reverse_eq_none_iff, map_fst_paramEntries]
    have hreverse : (ownedBy (paramEntries fc.functions k params)).reverse =
        ownedBy (paramEntries fc.functions k params).reverse := map_reverse.symm
    rw [Agrees, entryLocals_owner, map_none, or_none, reverse_append, lookup_append,
      hreverse, lookup_map_binder, lookup_append]
    by_cases hin : x ∈ params
    · obtain ⟨b, hb⟩ := ne_none_iff_exists'.mp fun hnone => hparam.mp hnone hin
      simp [hb, hin]
    · rw [hparam.mpr hin, FnCompiler.captures, lookup_captures,
        if_pos (mem_freeVars G body params [] x (.inr ⟨hx, hin⟩))]
      simp [hin, Agrees]
  refine and_congr_right fun _ => ?_
  constructor
  · intro hall x hx
    rw [mem_filter, decide_eq_true_eq] at hx
    exact (hagree x hx.1).mp (hall x hx.1) hx.2
  · intro hall x hx
    refine (hagree x hx).mpr fun hout => hall x ?_
    rw [mem_filter, decide_eq_true_eq]
    exact ⟨hx, hout⟩

end LexLang.Compiler
