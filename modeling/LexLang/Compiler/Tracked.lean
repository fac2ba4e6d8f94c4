/-
# LexLang.Compiler.Tracked — `Tracks` for expressions

The recursion over expressions. The lambdas that are queued on the way have to be listed with the captures
that their closures are made of.
-/
import LexLang.Compiler.Slots

namespace LexLang.Compiler

open LexLang.Ast
open List

section Tracked

variable {G : Globals} {E : Nat → Option (List (String × Owner))} {n : Nat} {scope : Scope}
  {fc fc' : FnCompiler} {names : List String} {count : Nat}

/-- The queued lambdas are listed with their captures. -/
def Listed (E : Nat → Option (List (String × Owner))) (fc : FnCompiler) : Prop :=
  ∀ pl ∈ fc.pendingLambdas, E pl.fnId = some pl.captures

theorem Listed.before (h : Listed E fc') (he : Emitted scope names count fc fc') : Listed E fc :=
  fun pl hpl => h pl (he.pending pl hpl)

theorem tracks_emitAll (ops : List Op) (hops : ∀ op ∈ ops, op.Straight) : Tracks E n fc (fc.emitAll ops) := by
  refine tracks_code ops ?_
  intro i op hop
  exact (hops op (mem_of_getElem? hop)).inside _ _ (List.getElem?_eq_some_iff.mp hop).1

theorem Tracks.emit (h : Tracks E n fc fc') (op : Op) (hop : op.Straight) : Tracks E n fc (fc'.emit op) :=
  h.trans (tracks_emit op hop)

/-- A name that is called or that is a call of `todo`: the instruction after the note. -/
theorem tracks_call {name : String} {lexical : Option Denotation} {denotes : Denotation} (op : Op)
    (hop : op.Straight) (hnamed : (∃ fnId, denotes = .function fnId ∧
      ∃ arity, op = .call fnId arity ∨ op = .tailCall fnId arity) ∨ denotes = .todo ∧ op = .panic "todo() reached") :
    Tracks E n fc ((fc.note name lexical denotes).emit op) := by
  refine tracks_note [op] (fun op' hop' => .inl (mem_singleton.mp hop' ▸ hop)) ?_
  intro T T' _ _
  rcases hnamed with ⟨fnId, rfl, arity, hcall⟩ | ⟨rfl, rfl⟩
  · exact ⟨op, List.getElem?_concat_length, .inr ⟨arity, hcall⟩⟩
  · exact List.getElem?_concat_length

/-- What the arms of a match leave: the names and the slots from before, and jumps out of their code. -/
structure ArmsTracked (E : Nat → Option (List (String × Owner))) (fc : FnCompiler) (ends : List Nat)
    (result : FnCompiler × List Nat) : Prop where
  tracks : Tracks E fc.nextLocal fc result.1
  locals : result.1.locals = fc.locals
  nextLocal : result.1.nextLocal = fc.nextLocal
  ends : ∀ j ∈ result.2, j ∈ ends ∨ fc.pc ≤ j ∧ j < result.1.pc

theorem ArmsTracked.cons {done : FnCompiler} {ends : List Nat} {result : FnCompiler × List Nat}
    {slots : List (String × Bool)} {t : PatternTest} {scrut : Nat}
    (hrest : ArmsTracked E (done.endArm fc t.fails) (ends ++ [done.pc]) result)
    (htest : TestSteps slots ⟨fc.emit (.loadLocal scrut), [], []⟩ t)
    (hbody : Tracks E fc.nextLocal t.fc done) : ArmsTracked E fc ends result := by
  have hload : fc.pc ≤ (fc.emit (.loadLocal scrut)).pc := by simp [FnCompiler.pc, FnCompiler.emit]
  have htested : Emitted [] _ 0 (fc.emit (.loadLocal scrut)) t.fc := htest.emitted
  have hpc := htested.pc
  have hpc' := hbody.pc
  have hend : (done.endArm fc t.fails).pc = done.pc + 1 := by
    simp [FnCompiler.endArm, FnCompiler.pc, FnCompiler.patchAll, FnCompiler.emit]
  have hle := hrest.tracks.pc
  have harm : Tracks E fc.nextLocal fc done :=
    (tracks_emit (.loadLocal scrut) trivial).trans ((htest.tracks le_rfl).trans hbody)
  have hjumps : ∀ j ∈ t.fails, fc.pc ≤ j ∧ j < done.pc := by
    intro j hj
    have : (fc.emit (.loadLocal scrut)).pc ≤ j ∧ j < t.fc.pc :=
      (htest.fails j hj).resolve_left not_mem_nil
    omega
  have hjoin : Tracks E fc.nextLocal fc (done.endArm fc t.fails) :=
    tracks_join harm (.jump 0) (.inl rfl) hjumps
  refine ⟨hjoin.trans hrest.tracks, hrest.locals, hrest.nextLocal, ?_⟩
  intro j hj
  rcases hrest.ends j hj with hj | hj
  · refine (mem_append.mp hj).imp_right fun hj => ?_
    rw [mem_singleton.mp hj]
    omega
  · right
    omega

mutual

/-- **Every slot that the code of an expression reads under a binder's name holds what the binder gave.** -/
theorem compileExpr_tracks (hE : NamedApart G E) : ∀ (e : CExpr) (scope : Scope) (tail : Bool)
    (fc : FnCompiler) (n : Nat), n ≤ fc.nextLocal → Listed E (compileExpr G e scope tail fc) →
    Tracks E n fc (compileExpr G e scope tail fc)
  | .literal _, _, _, _, _, _, _ => tracks_emit _ trivial
  | .var name, _, _, _, _, _, _ => tracks_compileVar hE name
  | .letE name ty value body, scope, tail, fc, n, hn, hE' => by
    rw [compileExpr] at hE' ⊢
    have hvalue := compileExpr_emitted G value scope false fc
    have hbind : Emitted scope [name] 0 (compileExpr G value scope false fc)
      ((compileExpr G value scope false fc).bind name
        (.binder (compileExpr G value scope false fc).binder)) := emitted_bind name (.inr rfl)
    have hbody := hE'.before (compileExpr_emitted G body _ tail _)
    refine (compileExpr_tracks hE value scope false fc n hn (hbody.before hbind)).trans ?_
    refine (tracks_bind_binder (hn.trans hvalue.nextLocal) name).trans ?_
    exact compileExpr_tracks hE body _ tail _ n
      (hn.trans (hvalue.nextLocal.trans hbind.nextLocal)) hE'
  | .block statements result, scope, tail, fc, n, hn, hE' => by
    rw [compileExpr] at hE' ⊢
    have hstatements := compileExprs_emitted G [.pop] statements scope fc
    exact (compileExprs_tracks hE (by simp [Op.Straight]) statements scope fc n hn
      (hE'.before (compileExpr_emitted G result scope tail _))).trans
        (compileExpr_tracks hE result scope tail _ n (hn.trans hstatements.nextLocal) hE')
  | .call callee args, scope, tail, fc, n, hn, hE' => by
    rw [compileExpr] at hE' ⊢
    cases hform : G.callForm callee with
    | module name module op =>
      rw [hform] at hE'
      dsimp only at hE' ⊢
      cases htemplate : higherOrder (module, op) with
      | some template =>
        rw [htemplate] at hE'
        dsimp only at hE' ⊢
        refine (tracks_module name module (scope.qualifier G name)).trans ?_
        exact compileInline_tracks hE template args scope [] _ n (by simp [Temps]) hn
          (templateOk_of_higherOrder htemplate) hE'
      | none =>
        rw [htemplate] at hE'
        dsimp only at hE' ⊢
        refine (tracks_module name module (scope.qualifier G name)).trans (Tracks.emit ?_ _ trivial)
        exact compileExprs_tracks hE (by simp) args scope _ n hn hE'
    | function name fnId =>
      rw [hform] at hE'
      dsimp only at hE' ⊢
      refine (compileExprs_tracks hE (by simp) args scope fc n hn hE').trans ?_
      refine tracks_call _ ?_ (.inl ⟨fnId, rfl, args.length, ?_⟩)
      · cases tail <;> trivial
      · cases tail
        · exact .inl rfl
        · exact .inr rfl
    | todo name => exact tracks_call _ trivial (.inr ⟨rfl, rfl⟩)
    | named name =>
      rw [hform] at hE'
      dsimp only at hE' ⊢
      have hcallee : Emitted scope [] 0 fc (fc.compileCallee G scope name) :=
        emitted_compileCallee G name
      have htracks : Tracks E n fc (fc.compileCallee G scope name) := tracks_compileCallee hE name
      refine htracks.trans (Tracks.emit ?_ _ trivial)
      exact compileExprs_tracks hE (by simp) args scope _ n (hn.trans hcallee.nextLocal) hE'
    | value =>
      rw [hform] at hE'
      dsimp only at hE' ⊢
      have hcallee := compileExpr_emitted G callee scope false fc
      have hargs := compileExprs_emitted G [] args scope (compileExpr G callee scope false fc)
      have hlisted : Listed E (compileExprs G [] args scope (compileExpr G callee scope false fc)) := hE'
      refine (compileExpr_tracks hE callee scope false fc n hn (hlisted.before hargs)).trans ?_
      exact Tracks.emit (compileExprs_tracks hE (by simp) args scope _ n
        (hn.trans hcallee.nextLocal) hE') _ trivial
  | .constructor _ args, scope, _, fc, n, hn, hE' =>
    (compileExprs_tracks hE (by simp) args scope fc n hn hE').emit _ trivial
  | .matchE scrutinee arms, scope, tail, fc, n, hn, hE' => by
    rw [compileExpr] at hE' ⊢
    have hscrutinee := compileExpr_emitted G scrutinee scope false fc
    have hbind : Emitted scope ["__scrut"] 0 (compileExpr G scrutinee scope false fc)
      ((compileExpr G scrutinee scope false fc).bind "__scrut" .temporary) :=
      emitted_bind "__scrut" (.inl rfl)
    have harms := compileArms_emitted G (compileExpr G scrutinee scope false fc).nextLocal arms scope
      tail ((compileExpr G scrutinee scope false fc).bind "__scrut" .temporary) []
    have hlisted : Listed E (compileArms G (compileExpr G scrutinee scope false fc).nextLocal arms
      scope tail ((compileExpr G scrutinee scope false fc).bind "__scrut" .temporary) []).1 := hE'
    have harmsTracked := compileArms_tracks hE (compileExpr G scrutinee scope false fc).nextLocal arms
      scope tail ((compileExpr G scrutinee scope false fc).bind "__scrut" .temporary) [] hlisted
    refine (compileExpr_tracks hE scrutinee scope false fc n hn
      ((hlisted.before harms).before hbind)).trans ?_
    refine (tracks_bind (hn.trans hscrutinee.nextLocal) "__scrut").trans ?_
    generalize hresult : compileArms G _ arms scope tail _ [] = result at harmsTracked
    obtain ⟨done, ends⟩ := result
    have hends : ∀ j ∈ ends, ((compileExpr G scrutinee scope false fc).bind "__scrut" .temporary).pc ≤ j ∧
        j < done.pc := fun j hj => (harmsTracked.ends j hj).resolve_left not_mem_nil
    have hjoin := tracks_join harmsTracked.tracks (.panic "non-exhaustive match") (.inr ⟨_, rfl⟩) hends
    have hsame : ({ (done.emit (.panic "non-exhaustive match")).patchAll ends with
        locals := ((compileExpr G scrutinee scope false fc).bind "__scrut" .temporary).locals
        nextLocal := ((compileExpr G scrutinee scope false fc).bind "__scrut" .temporary).nextLocal } :
        FnCompiler) = (done.emit (.panic "non-exhaustive match")).patchAll ends := by
      rw [← harmsTracked.locals, ← harmsTracked.nextLocal]
      rfl
    rw [hsame] at hjoin
    exact hjoin.mono (hn.trans (hscrutinee.nextLocal.trans hbind.nextLocal))
  | .recordLit fields, scope, _, fc, n, hn, hE' =>
    (compileFields_tracks hE fields scope fc n hn hE').emit _ trivial
  | .tupleLit items, scope, _, fc, n, hn, hE' | .listLit items, scope, _, fc, n, hn, hE' =>
    (compileExprs_tracks hE (by simp) items scope fc n hn hE').emit _ trivial
  | .fieldAccess value _, scope, _, fc, n, hn, hE' =>
    (compileExpr_tracks hE value scope false fc n hn hE').emit _ trivial
  | .binOp op lhs rhs, scope, _, fc, n, hn, hE' => by
    rw [compileExpr] at hE' ⊢
    have hlhs := compileExpr_emitted G lhs scope false fc
    have hrhs := compileExpr_emitted G rhs scope false (compileExpr G lhs scope false fc)
    have hop : Emitted scope (swapNames op) 0
        (compileExpr G rhs scope false (compileExpr G lhs scope false fc)) _ := emitted_emitBinOp op
    have hE' := hE'.before hop
    refine (compileExpr_tracks hE lhs scope false fc n hn (hE'.before hrhs)).trans ?_
    refine (compileExpr_tracks hE rhs scope false _ n (hn.trans hlhs.nextLocal) hE').trans ?_
    exact tracks_emitBinOp (hn.trans (hlhs.nextLocal.trans hrhs.nextLocal)) op
  | .unaryOp op expr, scope, _, fc, n, hn, hE' => by
    rw [compileExpr] at hE' ⊢
    have hop : Emitted scope [] 0 (compileExpr G expr scope false fc) _ := emitted_emitUnaryOp op
    exact (compileExpr_tracks hE expr scope false fc n hn (hE'.before hop)).trans (tracks_emitUnaryOp op)
  | .lambda params _ _ _ body, _, _, _, _, _, hE' => tracks_compileLambda hE'
  | .returnE value, scope, _, fc, n, hn, hE' =>
    (compileExpr_tracks hE value scope true fc n hn hE').emit _ trivial

theorem compileExprs_tracks (hE : NamedApart G E) {after : List Op} (hafter : ∀ op ∈ after, op.Straight) :
    ∀ (es : List CExpr) (scope : Scope) (fc : FnCompiler) (n : Nat), n ≤ fc.nextLocal →
      Listed E (compileExprs G after es scope fc) → Tracks E n fc (compileExprs G after es scope fc)
  | [], _, _, _, _, _ => .refl
  | e :: es, scope, fc, n, hn, hE' => by
    rw [compileExprs] at hE' ⊢
    have he := compileExpr_emitted G e scope false fc
    have hafter' : Emitted scope [] 0 (compileExpr G e scope false fc) _ := emitted_emitAll after
    have hlisted := hE'.before (compileExprs_emitted G after es scope _)
    refine (compileExpr_tracks hE e scope false fc n hn (hlisted.before hafter')).trans ?_
    refine (tracks_emitAll after hafter).trans ?_
    exact compileExprs_tracks hE hafter es scope _ n (hn.trans he.nextLocal) hE'

theorem compileFields_tracks (hE : NamedApart G E) : ∀ (fields : List (String × CExpr)) (scope : Scope)
    (fc : FnCompiler) (n : Nat), n ≤ fc.nextLocal → Listed E (compileFields G fields scope fc) →
    Tracks E n fc (compileFields G fields scope fc)
  | [], _, _, _, _, _ => .refl
  | (_, e) :: fields, scope, fc, n, hn, hE' => by
    rw [compileFields] at hE' ⊢
    have he := compileExpr_emitted G e scope false fc
    exact (compileExpr_tracks hE e scope false fc n hn
      (hE'.before (compileFields_emitted G fields scope _))).trans
        (compileFields_tracks hE fields scope _ n (hn.trans he.nextLocal) hE')

theorem compileArms_tracks (hE : NamedApart G E) (scrut : Nat) : ∀ (arms : List (Pattern × CExpr))
    (scope : Scope) (tail : Bool) (fc : FnCompiler) (ends : List Nat),
    Listed E (compileArms G scrut arms scope tail fc ends).1 →
    ArmsTracked E fc ends (compileArms G scrut arms scope tail fc ends)
  | [], _, _, _, _, _ => ⟨.refl, rfl, rfl, fun _ => .inl⟩
  | (p, body) :: arms, scope, tail, fc, ends, hE' => by
    rw [compileArms] at hE' ⊢
    have htest := compilePatternTest_steps p ⟨fc.emit (.loadLocal scrut), [], []⟩
    have htested : Emitted scope _ 0 (fc.emit (.loadLocal scrut)) _ := htest.emitted
    have hrest := compileArms_tracks hE scrut arms scope tail _ _ hE'
    have hlisted := Listed.before hE' (compileArms_emitted G scrut arms scope tail _ _)
    exact hrest.cons htest (compileExpr_tracks hE body _ tail _ _ htested.nextLocal hlisted)

theorem compileInline_tracks (hE : NamedApart G E) : ∀ (template : Template) (es : List CExpr)
    (scope : Scope) (slots : List Nat) (fc : FnCompiler) (n : Nat), Temps n fc slots → n ≤ fc.nextLocal →
    templateOk slots.length template = true → Listed E (compileInline G template es scope slots fc) →
    Tracks E n fc (compileInline G template es scope slots fc)
  | [], _, _, _, _, _, _, _, _, _ => by
    rw [compileInline]
    exact .refl
  | _ :: _, [], _, _, _, _, _, _, _, _ => tracks_panic
  | steps :: template, e :: es, scope, slots, fc, n, htemps, hn, hok, hE' => by
    rw [compileInline] at hE' ⊢
    rw [templateOk, Bool.and_eq_true] at hok
    have he := compileExpr_emitted G e scope false fc
    have hsteps : Emitted scope (stepNames steps) 0 (compileExpr G e scope false fc) _ :=
      emitted_steps steps ⟨compileExpr G e scope false fc, slots⟩
    have hrest := compileInline_emitted G template es scope
      ((Inlining.mk (compileExpr G e scope false fc) slots).steps steps).slots
      ((Inlining.mk (compileExpr G e scope false fc) slots).steps steps).fc
    have hlisted := (Listed.before hE' hrest).before hsteps
    refine (compileExpr_tracks hE e scope false fc n hn hlisted).trans ?_
    refine .of_slotted (hsteps.pc.trans hrest.pc) fun hslotted => ?_
    obtain ⟨htracks, htemps', hlength⟩ := Inlining.tracks
      (s := ⟨compileExpr G e scope false fc, slots⟩) hslotted (htemps.emitted he)
      (hn.trans he.nextLocal) hok.1
    refine htracks.trans ?_
    refine compileInline_tracks hE template es scope _ _ n htemps'
      (hn.trans (he.nextLocal.trans hsteps.nextLocal)) ?_ hE'
    rw [hlength]
    exact hok.2

end

end Tracked

end LexLang.Compiler
