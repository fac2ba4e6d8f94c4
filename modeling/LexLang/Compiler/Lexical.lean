/-
# LexLang.Compiler.Lexical — when every name of a program is resolved by lexical scope

The lemma for expressions, by recursion on the expression, and from it the one for programs: all names are
resolved by lexical scope exactly when nothing is in the way in any declared function.
-/
import LexLang.Compiler.Resolution

namespace LexLang.Compiler

open LexLang.Ast
open List

section Expressions

variable {G : Globals} {scope : Scope} {names names' : List String} {count : Nat} {fc fc' : FnCompiler}

theorem Emitted.not_panicked (h : Emitted scope names count fc fc') (hp : fc'.panicked = false) :
    fc.panicked = false := by
  cases hfc : fc.panicked with
  | false => rfl
  | true => simp [h.panicked hfc] at hp

theorem agrees_bind_iff {name : String} {looked : List String} :
    (∀ x ∈ looked, Agrees (fc.bind name (.binder fc.binder)).locals ((name, fc.binder) :: scope) x) ↔
      ∀ x ∈ looked.filter (· ≠ name), Agrees fc.locals scope x := by
  have hother : ∀ x, x ≠ name →
      (Agrees (fc.bind name (.binder fc.binder)).locals ((name, fc.binder) :: scope) x ↔
        Agrees fc.locals scope x) := by
    intro x hx
    rw [Agrees, Agrees, lookup_cons, beq_eq_false_iff_ne.mpr hx]
    show (Function.update fc.locals name _ x).map _ = _ ↔ _
    rw [Function.update_of_ne hx]
  have hself : Agrees (fc.bind name (.binder fc.binder)).locals ((name, fc.binder) :: scope) name := by
    rw [Agrees, lookup_cons, beq_self_eq_true]
    show (Function.update fc.locals name _ name).map _ = _
    rw [Function.update_self]
    rfl
  constructor
  · intro hall x hx
    rw [mem_filter, decide_eq_true_eq] at hx
    exact (hother x hx.2).mp (hall x hx.1)
  · intro hall x hx
    by_cases hname : x = name
    · rw [hname]
      exact hself
    · refine (hother x hname).mpr (hall x ?_)
      rw [mem_filter, decide_eq_true_eq]
      exact ⟨hx, hname⟩

theorem Old.bind (ho : Old scope fc) (name : String) :
    Old ((name, fc.binder) :: scope) (fc.bind name (.binder fc.binder)) := by
  have hstep : Emitted scope [name] 0 fc (fc.bind name (.binder fc.binder)) := emitted_bind name (.inr rfl)
  intro p hp
  rcases mem_cons.mp hp with rfl | hp
  · intro _ pc hsite
    cases hsite
    simp [FnCompiler.bind, FnCompiler.emit, FnCompiler.allocLocal, FnCompiler.pc]
  · exact hstep.old ho p hp

theorem Old.append {binders : Scope} (hb : Old binders fc) (ho : Old scope fc) : Old (binders ++ scope) fc := by
  intro p hp
  rcases mem_append.mp hp with hp | hp
  · exact hb p hp
  · exact ho p hp

theorem names_cons (name : String) (b : Binder) : Scope.names ((name, b) :: scope) = insert name scope.names := by
  ext x
  simp [Scope.names]

theorem names_arm {p : Pattern} {t : PatternTest} (h : TestSteps (slotNames p) ⟨fc, [], []⟩ t) :
    Scope.names (t.bindings ++ scope) = {x | x ∈ patternBinders p} ∪ scope.names := by
  ext x
  rw [Scope.names, map_append, Set.mem_ofPred_eq, mem_append, h.names_iff, ← mem_patternBinders_iff]
  simp [Scope.names]

theorem rightly_emitBinOp_iff {op : String} : Rightly G (fc.emitBinOp op) ↔ Rightly G fc := by
  unfold FnCompiler.emitBinOp
  split <;> exact Iff.rfl

theorem rightly_emitUnaryOp_iff {op : String} : Rightly G (fc.emitUnaryOp op) ↔ Rightly G fc := by
  unfold FnCompiler.emitUnaryOp
  split <;> exact Iff.rfl

theorem rightly_steps_iff (steps : List Step) (s : Inlining) : Rightly G (s.steps steps).fc ↔ Rightly G s.fc := by
  induction steps generalizing s with
  | nil => exact Iff.rfl
  | cons step steps ih =>
    refine (ih (s.step step)).trans ?_
    cases step <;> exact Iff.rfl

theorem rightly_compileLambda_iff {params : List String} {body : CExpr} :
    Rightly G (fc.compileLambda scope params body) ↔
      Rightly G fc ∧ Undisturbed G ({x | x ∈ params} ∪ scope.names) body ∧
        ∀ x ∈ (reads G body).filter (· ∉ params), Agrees fc.locals scope x := by
  rw [← fine_iff]
  simp only [Rightly, FnCompiler.compileLambda, forall_mem_cons]
  exact ⟨fun h => ⟨⟨h.1, h.2.2⟩, h.2.1⟩, fun h => ⟨h.1.1, h.2, h.1.2⟩⟩

mutual

/-- **Everything an expression's code resolves, lambdas included, is resolved by lexical scope exactly
when** nothing in it is in the way and the names it looks up are where lexical scope has them. -/
theorem rightly_compileExpr_iff : ∀ (e : CExpr) (scope : Scope) (tail : Bool) (fc : FnCompiler),
    Old scope fc → (compileExpr G e scope tail fc).panicked = false →
      (Rightly G (compileExpr G e scope tail fc) ↔
        Rightly G fc ∧ Undisturbed G scope.names e ∧ ∀ x ∈ reads G e, Agrees fc.locals scope x)
  | .literal _, _, _, _, _, _ => by
    rw [Undisturbed, reads]
    simp only [not_mem_nil, false_implies, implies_true, and_true, compileExpr]
    exact Iff.rfl
  | .var name, scope, _, fc, _, hp => by
    rw [compileExpr] at hp ⊢
    rw [rightly_compileVar_iff hp, Undisturbed, reads]
    simp
  | .letE name _ value body, scope, tail, fc, ho, hp => by
    rw [compileExpr] at hp ⊢
    have hvalue := compileExpr_emitted G value scope false fc
    have hold := (hvalue.old ho).bind name
    have hp' := (compileExpr_emitted G body _ tail _).not_panicked hp
    have hbind : Emitted scope [name] 0 _ ((compileExpr G value scope false fc).bind name
        (.binder (compileExpr G value scope false fc).binder)) := emitted_bind name (.inr rfl)
    rw [rightly_compileExpr_iff body _ tail _ hold hp, names_cons, agrees_bind_iff,
      hvalue.agrees_iff ho, Undisturbed, reads, forall_mem_append]
    have ih := rightly_compileExpr_iff value scope false fc ho (hbind.not_panicked hp')
    have hsame : Rightly G ((compileExpr G value scope false fc).bind name
        (.binder (compileExpr G value scope false fc).binder)) ↔
        Rightly G (compileExpr G value scope false fc) := Iff.rfl
    rw [hsame, ih]
    tauto
  | .block statements result, scope, tail, fc, ho, hp => by
    rw [compileExpr] at hp ⊢
    have hstatements := compileExprs_emitted G [.pop] statements scope fc
    have hp' := (compileExpr_emitted G result scope tail _).not_panicked hp
    rw [rightly_compileExpr_iff result scope tail _ (hstatements.old ho) hp,
      hstatements.agrees_iff ho, rightly_compileExprs_iff [.pop] statements scope fc ho hp',
      Undisturbed, reads, forall_mem_append]
    tauto
  | .call callee args, scope, tail, fc, ho, hp => by
    rw [compileExpr] at hp ⊢
    rw [Undisturbed, reads]
    cases hform : G.callForm callee with
    | module name module op =>
      rw [hform] at hp
      dsimp only at hp ⊢
      have hqualifier : scope.qualifier G name = some (.module module) ↔ _ :=
        qualifier_eq_module_iff (callForm_module hform)
      have hlocals : (fc.note name (scope.qualifier G name) (.module module)).locals = fc.locals := rfl
      cases hop : higherOrder (module, op) with
      | some template =>
        rw [hop] at hp
        dsimp only at hp ⊢
        rw [rightly_compileInline_iff template args scope [] (fc.note name _ _) ho hp,
          rightly_note_iff, hqualifier, notMem_names_iff, hlocals]
        tauto
      | none =>
        rw [hop] at hp
        dsimp only at hp ⊢
        refine Iff.trans (rightly_compileExprs_iff [] args scope (fc.note name _ _) ho hp) ?_
        rw [rightly_note_iff, hqualifier, notMem_names_iff, hlocals]
        tauto
    | function name fnId =>
      rw [hform] at hp
      dsimp only at hp ⊢
      have ih := rightly_compileExprs_iff [] args scope fc ho hp
      refine Iff.trans rightly_note_iff ?_
      rw [callee_eq_function_iff (callForm_function hform), ih, notMem_names_iff]
      tauto
    | todo name =>
      dsimp only
      refine Iff.trans rightly_note_iff ?_
      rw [callee_eq_todo_iff (callForm_todo hform).1 (callForm_todo hform).2, notMem_names_iff]
      simp [and_comm]
    | named name =>
      rw [hform] at hp
      dsimp only at hp ⊢
      have hcallee : Emitted scope [] 0 fc (fc.compileCallee G scope name) :=
        emitted_compileCallee G name
      have hp' := (compileExprs_emitted G [] args scope (fc.compileCallee G scope name)).not_panicked hp
      refine Iff.trans (rightly_compileExprs_iff [] args scope _ (hcallee.old ho) hp) ?_
      rw [hcallee.agrees_iff ho, rightly_compileCallee_iff hp', forall_mem_cons]
      simp only [Apart, not_mem_nil, not_false_eq_true, implies_true, true_and]
      tauto
    | value =>
      rw [hform] at hp
      dsimp only at hp ⊢
      have hcallee := compileExpr_emitted G callee scope false fc
      have hp' := (compileExprs_emitted G [] args scope _).not_panicked hp
      refine Iff.trans (rightly_compileExprs_iff [] args scope _ (hcallee.old ho) hp) ?_
      rw [hcallee.agrees_iff ho, rightly_compileExpr_iff callee scope false fc ho hp', forall_mem_append]
      tauto
  | .constructor _ args, scope, _, fc, ho, hp => rightly_compileExprs_iff [] args scope fc ho hp
  | .matchE scrutinee arms, scope, tail, fc, ho, hp => by
    have hscrut := compileExpr_emitted G scrutinee scope false fc
    have hbind : Emitted scope ["__scrut"] 0 _
        ((compileExpr G scrutinee scope false fc).bind "__scrut" .temporary) :=
      emitted_bind "__scrut" (.inl rfl)
    have harms := compileArms_emitted G (compileExpr G scrutinee scope false fc).nextLocal arms scope
      tail ((compileExpr G scrutinee scope false fc).bind "__scrut" .temporary) []
    have hboth := hscrut.trans hbind
    have ih := rightly_compileArms_iff (compileExpr G scrutinee scope false fc).nextLocal arms scope
      tail ((compileExpr G scrutinee scope false fc).bind "__scrut" .temporary) []
      (hboth.old ho) hp
    refine Iff.trans ih ?_
    rw [hboth.agrees_iff ho, Undisturbed, reads, forall_mem_append]
    have ih' := rightly_compileExpr_iff scrutinee scope false fc ho
      (hbind.not_panicked (harms.not_panicked hp))
    have hsame : Rightly G ((compileExpr G scrutinee scope false fc).bind "__scrut" .temporary) ↔
        Rightly G (compileExpr G scrutinee scope false fc) := Iff.rfl
    rw [hsame, ih']
    tauto
  | .recordLit fields, scope, _, fc, ho, hp => rightly_compileFields_iff fields scope fc ho hp
  | .tupleLit items, scope, _, fc, ho, hp => rightly_compileExprs_iff [] items scope fc ho hp
  | .listLit items, scope, _, fc, ho, hp => rightly_compileExprs_iff [] items scope fc ho hp
  | .fieldAccess value _, scope, _, fc, ho, hp => rightly_compileExpr_iff value scope false fc ho hp
  | .binOp op lhs rhs, scope, _, fc, ho, hp => by
    rw [compileExpr] at hp ⊢
    have hlhs := compileExpr_emitted G lhs scope false fc
    have hop : Emitted scope (swapNames op) 0 _
        ((compileExpr G rhs scope false (compileExpr G lhs scope false fc)).emitBinOp op) :=
      emitted_emitBinOp op
    have hp' := hop.not_panicked hp
    have hp'' := (compileExpr_emitted G rhs scope false _).not_panicked hp'
    rw [rightly_emitBinOp_iff, rightly_compileExpr_iff rhs scope false _ (hlhs.old ho) hp',
      hlhs.agrees_iff ho, rightly_compileExpr_iff lhs scope false fc ho hp'', Undisturbed, reads,
      forall_mem_append]
    tauto
  | .unaryOp op expr, scope, _, fc, ho, hp => by
    rw [compileExpr] at hp ⊢
    have hop : Emitted scope [] 0 _ ((compileExpr G expr scope false fc).emitUnaryOp op) :=
      emitted_emitUnaryOp op
    rw [rightly_emitUnaryOp_iff]
    exact rightly_compileExpr_iff expr scope false fc ho (hop.not_panicked hp)
  | .lambda params _ _ _ body, _, _, _, _, _ => rightly_compileLambda_iff
  | .returnE value, scope, _, fc, ho, hp => rightly_compileExpr_iff value scope true fc ho hp

theorem rightly_compileExprs_iff (after : List Op) : ∀ (es : List CExpr) (scope : Scope)
    (fc : FnCompiler), Old scope fc → (compileExprs G after es scope fc).panicked = false →
      (Rightly G (compileExprs G after es scope fc) ↔
        Rightly G fc ∧ UndisturbedAll G scope.names es ∧ ∀ x ∈ readsAll G es, Agrees fc.locals scope x)
  | [], _, _, _, _ => by
    rw [compileExprs, UndisturbedAll, readsAll]
    simp
  | e :: es, scope, fc, ho, hp => by
    rw [compileExprs] at hp ⊢
    have he := compileExpr_emitted G e scope false fc
    have hafter : Emitted scope [] 0 _ ((compileExpr G e scope false fc).emitAll after) :=
      emitted_emitAll after
    have hboth := (he.trans hafter).congr (append_nil _) le_rfl
    have hp' := hafter.not_panicked ((compileExprs_emitted G after es scope _).not_panicked hp)
    have hsame : Rightly G ((compileExpr G e scope false fc).emitAll after) ↔
        Rightly G (compileExpr G e scope false fc) := Iff.rfl
    rw [rightly_compileExprs_iff after es scope _ (hboth.old ho) hp, hboth.agrees_iff ho, hsame,
      rightly_compileExpr_iff e scope false fc ho hp', UndisturbedAll, readsAll, forall_mem_append]
    tauto

theorem rightly_compileFields_iff : ∀ (fields : List (String × CExpr)) (scope : Scope)
    (fc : FnCompiler), Old scope fc → (compileFields G fields scope fc).panicked = false →
      (Rightly G (compileFields G fields scope fc) ↔
        Rightly G fc ∧ UndisturbedFields G scope.names fields ∧
          ∀ x ∈ readsFields G fields, Agrees fc.locals scope x)
  | [], _, _, _, _ => by
    rw [compileFields, UndisturbedFields, readsFields]
    simp
  | (_, e) :: fields, scope, fc, ho, hp => by
    rw [compileFields] at hp ⊢
    have he := compileExpr_emitted G e scope false fc
    have hp' := (compileFields_emitted G fields scope _).not_panicked hp
    rw [rightly_compileFields_iff fields scope _ (he.old ho) hp, he.agrees_iff ho,
      rightly_compileExpr_iff e scope false fc ho hp', UndisturbedFields, readsFields, forall_mem_append]
    tauto

theorem rightly_compileArms_iff (scrut : Nat) : ∀ (arms : List (Pattern × CExpr)) (scope : Scope)
    (tail : Bool) (fc : FnCompiler) (ends : List Nat), Old scope fc →
      (compileArms G scrut arms scope tail fc ends).1.panicked = false →
      (Rightly G (compileArms G scrut arms scope tail fc ends).1 ↔
        Rightly G fc ∧ UndisturbedArms G scope.names arms ∧
          ∀ x ∈ readsArms G arms, Agrees fc.locals scope x)
  | [], _, _, _, _, _, _ => by
    rw [compileArms, UndisturbedArms, readsArms]
    simp
  | (p, body) :: arms, scope, tail, fc, ends, ho, hp => by
    rw [compileArms] at hp ⊢
    have htest := compilePatternTest_steps p ⟨fc.emit (.loadLocal scrut), [], []⟩
    generalize compilePatternTest p ⟨fc.emit (.loadLocal scrut), [], []⟩ = t at htest hp ⊢
    have hload : Emitted scope [] 0 fc (fc.emit (.loadLocal scrut)) := emitted_emit _
    have hpattern : Emitted scope _ 0 _ t.fc := htest.emitted
    have hstart := hload.trans hpattern
    have hold : Old (t.bindings ++ scope) t.fc :=
      (htest.old (by simp [Old])).append (hstart.old ho)
    have hbody := compileExpr_emitted G body (t.bindings ++ scope) tail t.fc
    generalize hdone : compileExpr G body (t.bindings ++ scope) tail t.fc = done at hp ⊢
    have hnext : Old scope (done.endArm fc t.fails) := by
      rw [hdone] at hbody
      refine (hstart.old ho).mono hbody.fnId ?_
      show t.fc.pc ≤ ((done.code ++ [Op.jump 0]).mapIdx _).length
      rw [length_mapIdx, length_append]
      exact hbody.pc.trans (Nat.le_add_right _ _)
    have hp' : done.panicked = false :=
      (compileArms_emitted G scrut arms scope tail (done.endArm fc t.fails) _).not_panicked hp
    have hsame : Rightly G (done.endArm fc t.fails) ↔ Rightly G done := Iff.rfl
    rw [rightly_compileArms_iff scrut arms scope tail _ _ hnext hp, hsame, ← hdone,
      rightly_compileExpr_iff body _ tail t.fc hold (hdone ▸ hp'), names_arm htest,
      agrees_arm_iff scope htest, UndisturbedArms, readsArms, forall_mem_append]
    have hquiet : Rightly G t.fc ↔ Rightly G fc := htest.rightly_iff
    rw [hquiet]
    have hlocals : (fc.emit (.loadLocal scrut)).locals = fc.locals := rfl
    have hrestored : (done.endArm fc t.fails).locals = fc.locals := rfl
    rw [hlocals, hdone, hrestored]
    tauto

theorem rightly_compileInline_iff : ∀ (template : Template) (es : List CExpr) (scope : Scope)
    (slots : List Nat) (fc : FnCompiler), Old scope fc →
      (compileInline G template es scope slots fc).panicked = false →
      (Rightly G (compileInline G template es scope slots fc) ↔
        Rightly G fc ∧ UndisturbedInline G scope.names template es ∧
          ∀ x ∈ readsInline G template es, Agrees fc.locals scope x)
  | [], _, _, _, _, _, _ => by
    rw [compileInline, UndisturbedInline, readsInline]
    simp
  | _ :: _, [], _, _, _, _, hp => by
    rw [compileInline] at hp
    simp [FnCompiler.panic] at hp
  | steps :: template, e :: es, scope, slots, fc, ho, hp => by
    rw [compileInline] at hp ⊢
    have he := compileExpr_emitted G e scope false fc
    have hsteps : Emitted scope (stepNames steps) 0 _
        ((Inlining.mk (compileExpr G e scope false fc) slots).steps steps).fc := emitted_steps steps _
    have hboth := he.trans hsteps
    have hp' := hsteps.not_panicked ((compileInline_emitted G template es scope _ _).not_panicked hp)
    rw [rightly_compileInline_iff template es scope _ _ (hboth.old ho) hp, hboth.agrees_iff ho,
      rightly_steps_iff, rightly_compileExpr_iff e scope false fc ho hp', UndisturbedInline,
      readsInline, forall_mem_append]
    tauto

end

end Expressions

end LexLang.Compiler
