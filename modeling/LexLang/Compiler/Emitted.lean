/-
# LexLang.Compiler.Emitted — what compiling an expression does to the state

`Emitted` says it once for everything that is emitted: the code grows, slots and function ids are only
handed out, the lambdas that are queued are new, and the map of names differs exactly in the names left
behind, which have new slots. `compileExpr_emitted` is the lemma for expressions.
-/
import LexLang.Compiler.Names
import Mathlib.Order.Nat

namespace LexLang.Compiler

open LexLang.Ast
open List Nat

/-! ## Ids -/

/-- The functions of the binders in scope are in the table. -/
def Below (scope : Scope) (fc : FnCompiler) : Prop :=
  fc.fnId < fc.functions ∧ ∀ p ∈ scope, p.2.fnId < fc.functions

/-- The queued lambdas have ids of their own, above those of the functions around them. -/
structure FnCompiler.Queued (fc : FnCompiler) : Prop where
  below : ∀ pl ∈ fc.pendingLambdas, pl.fnId < fc.functions
  around : ∀ pl ∈ fc.pendingLambdas, ∀ p ∈ pl.scope, p.2.fnId < pl.fnId
  distinct : fc.pendingLambdas.Pairwise fun pl pl' => pl.fnId ≠ pl'.fnId

/-- The number of lambdas that are queued, with the ones inside them. -/
def queuedLambdas (pending : List PendingLambda) : Nat :=
  (pending.map fun pl => lambdas pl.body + 1).sum

/-- An entry of the map that was made after `fc`. -/
def Local.After (fc : FnCompiler) (l : Local) : Prop :=
  fc.nextLocal ≤ l.slot ∧
    ∀ b, l.owner = .binder b → b.fnId = fc.fnId ∧ ∃ pc, fc.pc ≤ pc ∧ b.site = .store pc

/-! ## Emitting -/

/-- **From `fc` to `fc'` code was emitted**, inside the binders of `scope`: it leaves `names` in the map
and queues at most `count` lambdas. -/
structure Emitted (scope : Scope) (names : List String) (count : Nat) (fc fc' : FnCompiler) : Prop where
  fnId : fc'.fnId = fc.fnId
  entries : fc'.entries = fc.entries
  pc : fc.pc ≤ fc'.pc
  nextLocal : fc.nextLocal ≤ fc'.nextLocal
  functions : fc.functions ≤ fc'.functions
  panicked : fc.panicked = true → fc'.panicked = true
  pending : ∀ pl ∈ fc.pendingLambdas, pl ∈ fc'.pendingLambdas
  fresh : ∀ pl ∈ fc'.pendingLambdas, pl ∈ fc.pendingLambdas ∨ fc.functions ≤ pl.fnId
  queued : Below scope fc → fc.Queued → fc'.Queued
  count : queuedLambdas fc'.pendingLambdas ≤ queuedLambdas fc.pendingLambdas + count
  kept : ∀ x, x ∉ names → fc'.locals x = fc.locals x
  left : ∀ x ∈ names, ∃ l, fc'.locals x = some l ∧ l.After fc

variable {scope : Scope}

theorem Below.mono {fc fc' : FnCompiler} (h : Below scope fc) (hid : fc'.fnId = fc.fnId)
    (hfunctions : fc.functions ≤ fc'.functions) : Below scope fc' := by
  constructor
  · have := h.1
    omega
  · intro p hp
    have := h.2 p hp
    omega

theorem Local.After.mono {fc fc' : FnCompiler} {l : Local} (h : l.After fc') (hid : fc'.fnId = fc.fnId)
    (hpc : fc.pc ≤ fc'.pc) (hslot : fc.nextLocal ≤ fc'.nextLocal) : l.After fc := by
  refine ⟨by have := h.1; omega, ?_⟩
  intro b hb
  obtain ⟨hfn, pc, hle, hsite⟩ := h.2 b hb
  exact ⟨hfn.trans hid, pc, by omega, hsite⟩

namespace Emitted

variable {scope : Scope} {names names' : List String} {count count' : Nat} {fc fc₁ fc₂ fc' : FnCompiler}

theorem below (h : Emitted scope names count fc fc') (hb : Below scope fc) : Below scope fc' :=
  hb.mono h.fnId h.functions

theorem trans (h : Emitted scope names count fc fc₁) (h' : Emitted scope names' count' fc₁ fc₂) :
    Emitted scope (names ++ names') (count + count') fc fc₂ where
  fnId := h'.fnId.trans h.fnId
  entries := h'.entries.trans h.entries
  pc := h.pc.trans h'.pc
  nextLocal := h.nextLocal.trans h'.nextLocal
  functions := h.functions.trans h'.functions
  panicked := fun hp => h'.panicked (h.panicked hp)
  pending := fun pl hpl => h'.pending pl (h.pending pl hpl)
  fresh := by
    intro pl hpl
    rcases h'.fresh pl hpl with hold | hnew
    · exact h.fresh pl hold
    · have := h.functions
      right
      omega
  queued := fun hb hq => h'.queued (h.below hb) (h.queued hb hq)
  count := by
    have := h.count
    have := h'.count
    omega
  kept := by
    intro x hx
    rw [mem_append, not_or] at hx
    rw [h'.kept x hx.2, h.kept x hx.1]
  left := by
    intro x hx
    by_cases hx' : x ∈ names'
    · obtain ⟨l, hl, hafter⟩ := h'.left x hx'
      exact ⟨l, hl, hafter.mono h.fnId h.pc h.nextLocal⟩
    · obtain ⟨l, hl, hafter⟩ := h.left x ((mem_append.mp hx).resolve_right hx')
      exact ⟨l, (h'.kept x hx').trans hl, hafter⟩

theorem congr (h : Emitted scope names count fc fc') (hn : names = names') (hc : count ≤ count') :
    Emitted scope names' count' fc fc' := by
  subst hn
  exact { h with count := h.count.trans (Nat.add_le_add_left hc _) }

/-- The lambdas that were queued see more binders of the function they stand in. -/
theorem inner {binders : Scope} (h : Emitted (binders ++ scope) names count fc fc')
    (hb : ∀ p ∈ binders, p.2.fnId = fc.fnId) : Emitted scope names count fc fc' := by
  refine { h with queued := fun hbelow => h.queued ⟨hbelow.1, ?_⟩ }
  intro p hp
  rcases mem_append.mp hp with hp | hp
  · rw [hb p hp]
    exact hbelow.1
  · exact hbelow.2 p hp

end Emitted

section Steps

variable {scope : Scope} {fc fc' : FnCompiler}

/-- Code and notes alone. -/
theorem emitted_code {ops : List Op} {refs : List Ref} :
    Emitted scope [] 0 fc { fc with code := fc.code ++ ops, refs := refs } where
  fnId := rfl
  entries := rfl
  pc := by simp [FnCompiler.pc]
  nextLocal := le_rfl
  functions := le_rfl
  panicked := id
  pending := fun _ => id
  fresh := fun _ => .inl
  queued := fun _ hq => ⟨hq.below, hq.around, hq.distinct⟩
  count := le_rfl
  kept := fun _ _ => rfl
  left := by simp

theorem emitted_emit (op : Op) : Emitted scope [] 0 fc (fc.emit op) := emitted_code

theorem emitted_emitAll (ops : List Op) : Emitted scope [] 0 fc (fc.emitAll ops) := emitted_code

theorem emitted_refl : Emitted scope [] 0 fc fc := by
  simpa [FnCompiler.emitAll] using (emitted_emitAll [] : Emitted scope [] 0 fc (fc.emitAll []))

theorem emitted_note (name : String) (lexical : Option Denotation) (denotes : Denotation) :
    Emitted scope [] 0 fc (fc.note name lexical denotes) := by
  simpa [FnCompiler.note] using
    (emitted_code : Emitted scope [] 0 fc
      { fc with code := fc.code ++ [], refs := ⟨fc.pc, name, lexical, denotes⟩ :: fc.refs })

theorem emitted_panic : Emitted scope [] 0 fc fc.panic :=
  { (emitted_refl : Emitted scope [] 0 fc fc) with
    panicked := fun _ => rfl
    queued := fun _ hq => ⟨hq.below, hq.around, hq.distinct⟩ }

theorem emitted_patchAll {names : List String} {count : Nat} (h : Emitted scope names count fc fc')
    (jumps : List Nat) : Emitted scope names count fc (fc'.patchAll jumps) :=
  { h with
    pc := by simpa [FnCompiler.pc, FnCompiler.patchAll] using h.pc
    queued := fun hb hq =>
      have hq' := h.queued hb hq
      ⟨hq'.below, hq'.around, hq'.distinct⟩ }

theorem emitted_alloc {owner : Owner} (name : String) (ho : owner = .temporary ∨ owner = .binder fc.binder) :
    Emitted scope [name] 0 fc (fc.allocLocal name owner) :=
  { (emitted_refl : Emitted scope [] 0 fc fc) with
    nextLocal := le_succ _
    queued := fun _ hq => ⟨hq.below, hq.around, hq.distinct⟩
    kept := by
      intro x hx
      exact Function.update_of_ne (by simpa using hx) _ _
    left := by
      intro x hx
      rw [mem_singleton] at hx
      subst hx
      refine ⟨_, Function.update_self _ _ _, le_rfl, ?_⟩
      intro b hb
      rcases ho with rfl | rfl
      · simp at hb
      · cases hb
        exact ⟨rfl, _, le_rfl, rfl⟩ }

theorem emitted_bind {owner : Owner} (name : String) (ho : owner = .temporary ∨ owner = .binder fc.binder) :
    Emitted scope [name] 0 fc (fc.bind name owner) :=
  (emitted_alloc name ho).trans (emitted_emit _)

theorem emitted_emitSwapTop2 : Emitted scope ["__swap_a", "__swap_b"] 0 fc fc.emitSwapTop2 :=
  ((emitted_alloc "__swap_a" (.inl rfl)).trans (emitted_alloc "__swap_b" (.inl rfl))).trans
    (emitted_emitAll _)

theorem emitted_emitBinOp (op : String) : Emitted scope (swapNames op) 0 fc (fc.emitBinOp op) := by
  unfold FnCompiler.emitBinOp
  split
  all_goals first
    | exact emitted_emit _
    | exact (emitted_emit _).trans (emitted_emit _)
    | exact emitted_emitSwapTop2.trans (emitted_emit _)
    | skip
  next hgt hge => exact emitted_panic.congr (by simp_all [swapNames]) le_rfl

theorem emitted_emitUnaryOp (op : String) : Emitted scope [] 0 fc (fc.emitUnaryOp op) := by
  unfold FnCompiler.emitUnaryOp
  split
  · exact emitted_emit _
  · exact emitted_emit _
  · exact emitted_panic

theorem emitted_compileVar (G : Globals) (name : String) : Emitted scope [] 0 fc (fc.compileVar G scope name) := by
  unfold FnCompiler.compileVar
  split
  · exact (emitted_note _ _ _).trans (emitted_emit _)
  · split
    · exact (emitted_note _ _ _).trans (emitted_emit _)
    · exact emitted_panic

theorem emitted_compileCallee (G : Globals) (name : String) :
    Emitted scope [] 0 fc (fc.compileCallee G scope name) := by
  unfold FnCompiler.compileCallee
  split
  · exact (emitted_note _ _ _).trans (emitted_emit _)
  · exact emitted_compileVar G name

theorem emitted_compileLambda (params : List String) (body : CExpr) :
    Emitted scope [] (lambdas body + 1) fc (fc.compileLambda scope params body) where
  fnId := rfl
  entries := rfl
  pc := by simp [FnCompiler.pc, FnCompiler.compileLambda, FnCompiler.emitAll]
  nextLocal := le_rfl
  functions := le_succ _
  panicked := id
  pending := fun _ hpl => mem_cons_of_mem _ hpl
  fresh := by
    intro pl hpl
    rcases mem_cons.mp hpl with rfl | hpl
    · exact .inr le_rfl
    · exact .inl hpl
  queued := by
    intro hb hq
    constructor
    · intro pl hpl
      rcases mem_cons.mp hpl with rfl | hpl
      · exact lt_succ_self _
      · exact lt_succ_of_lt (hq.below pl hpl)
    · intro pl hpl
      rcases mem_cons.mp hpl with rfl | hpl
      · exact hb.2
      · exact hq.around pl hpl
    · refine pairwise_cons.mpr ⟨?_, hq.distinct⟩
      intro pl hpl
      exact (hq.below pl hpl).ne'
  count := by
    simp only [queuedLambdas, FnCompiler.compileLambda, map_cons, sum_cons]
    show _ + (fc.pendingLambdas.map _).sum ≤ _
    omega
  kept := fun _ _ => rfl
  left := by simp

end Steps

/-! ## Patterns -/

/-- An instruction that goes on with the next one and stores nothing in a slot. -/
def Op.Plain : Op → Prop
  | .storeLocal _ | .jump _ | .jumpIf _ | .jumpIfNot _ | .return | .panic _ | .tailCall _ _
  | .makeClosure _ _ => False
  | _ => True

/-- **The test of a pattern, step by step**, with the names it hands out slots for. -/
inductive TestSteps : List (String × Bool) → PatternTest → PatternTest → Prop
  | refl (t) : TestSteps [] t t
  | emit (t) (op : Op) : op.Plain → TestSteps [] t (t.emit op)
  | bindVar (t) (name : String) : TestSteps [(name, true)] t (t.bindVar name)
  | bindPart (t) (name : String) : TestSteps [(name, false)] t (t.bindPart name)
  | testLit (t) (value : CLit) : TestSteps [] t (t.testLit value)
  | testVariant (t) (name : String) : TestSteps [] t (t.testVariant name)
  | trans {names names' t t' t''} : TestSteps names t t' → TestSteps names' t' t'' →
      TestSteps (names ++ names') t t''

variable {t t' : PatternTest} {names : List (String × Bool)}

/-- First a step that hands out nothing. -/
theorem TestSteps.after {t'' : PatternTest} (h : TestSteps [] t t')
    (h' : TestSteps names t' t'') : TestSteps names t t'' := .trans h h'

theorem TestSteps.load {slot : Nat} (part : Op) (h : part.Plain) :
    TestSteps [] t ((t.emit (.loadLocal slot)).emit part) :=
  .after (.emit t (.loadLocal slot) trivial) (.emit _ _ h)

theorem plain_getVariantArg (i : Nat) : (Op.getVariantArg i).Plain := trivial

theorem plain_getElem (i : Nat) : (Op.getElem i).Plain := trivial

mutual

theorem compilePatternTest_steps : ∀ (p : Pattern) (t : PatternTest),
    TestSteps (slotNames p) t (compilePatternTest p t)
  | .pWild, t => .emit t .pop trivial
  | .pVar name, t => .bindVar t name
  | .pLiteral value, t => .testLit t value
  | .pConstructor name [], t => .after (.testVariant t name) (.emit _ .pop trivial)
  | .pConstructor name [arg], t =>
    .after (.after (.testVariant t name) (.emit _ (.getVariantArg 0) trivial))
      (compilePatternTest_steps arg _)
  | .pConstructor name (p :: p' :: ps), t =>
    .after (.testVariant t name)
      (.trans (.bindPart _ "__variant")
        (compileItemTests_steps plain_getVariantArg _ 0 (p :: p' :: ps) _))
  | .pRecord fields, t => .trans (.bindPart t "__record") (compileFieldTests_steps _ fields _)
  | .pTuple items, t =>
    .trans (.bindPart t "__tuple") (compileItemTests_steps plain_getElem _ 0 items _)

theorem compileItemTests_steps {part : Nat → Op} (hpart : ∀ i, (part i).Plain) (slot : Nat) :
    ∀ (i : Nat) (ps : List Pattern) (t : PatternTest),
      TestSteps (slotNamesAll ps) t (compileItemTests part slot i ps t)
  | _, [], t => .refl t
  | i, p :: ps, _ =>
    .trans (.after (.load (part i) (hpart i)) (compilePatternTest_steps p _))
      (compileItemTests_steps hpart slot (i + 1) ps _)

theorem compileFieldTests_steps (slot : Nat) : ∀ (fields : List (String × Pattern)) (t : PatternTest),
    TestSteps (slotNamesFields fields) t (compileFieldTests slot fields t)
  | [], t => .refl t
  | (name, p) :: fields, _ =>
    .trans (.after (.load (.getField name) trivial) (compilePatternTest_steps p _))
      (compileFieldTests_steps slot fields _)

end

theorem TestSteps.emitted (h : TestSteps names t t') : Emitted scope (names.map Prod.fst) 0 t.fc t'.fc := by
  induction h with
  | refl => exact emitted_refl
  | emit => exact emitted_emit _
  | bindVar => exact emitted_bind _ (.inr rfl)
  | bindPart => exact emitted_bind _ (.inl rfl)
  | testLit => exact emitted_emitAll _
  | testVariant => exact emitted_emitAll _
  | trans _ _ ih ih' =>
    rw [map_append]
    exact ih.trans ih'

theorem TestSteps.fnId (h : TestSteps names t t') : t'.fc.fnId = t.fc.fnId :=
  (h.emitted : Emitted [] _ _ _ _).fnId

theorem TestSteps.bindings (h : TestSteps names t t')
    (ht : ∀ p ∈ t.bindings, p.2.fnId = t.fc.fnId) : ∀ p ∈ t'.bindings, p.2.fnId = t.fc.fnId := by
  induction h with
  | refl | emit | bindPart | testLit | testVariant => exact ht
  | bindVar =>
    intro p hp
    rcases mem_cons.mp hp with rfl | hp
    · rfl
    · exact ht p hp
  | trans h _ ih ih' =>
    intro p hp
    have hid := h.fnId
    exact (ih' (fun q hq => (ih ht q hq).trans hid.symm) p hp).trans hid

/-! ## Templates -/

theorem emitted_step (s : Inlining) (step : Step) :
    Emitted scope step.name?.toList 0 s.fc (s.step step).fc := by
  cases step with
  | op op => exact emitted_emit op
  | bind name => exact emitted_bind name (.inl rfl)
  | load k => exact emitted_emit _
  | store k => exact emitted_emit _
  | trampoline name captureCount =>
    have h : Emitted scope [] 0 s.fc (s.fc.emit (.makeTrampoline name captureCount)) := emitted_emit _
    exact { h with
      functions := le_succ _
      queued := fun _ hq =>
        ⟨fun pl hpl => lt_succ_of_lt (hq.below pl hpl), hq.around, hq.distinct⟩ }

theorem emitted_steps (steps : List Step) (s : Inlining) :
    Emitted scope (stepNames steps) 0 s.fc (s.steps steps).fc := by
  induction steps generalizing s with
  | nil => exact emitted_refl
  | cons step steps ih =>
    refine ((emitted_step s step).trans (ih (s.step step))).congr ?_ le_rfl
    cases step <;> rfl

/-! ## Expressions -/

section Expressions

variable (G : Globals)

mutual

/-- **What compiling an expression does to the state.** -/
theorem compileExpr_emitted : ∀ (e : CExpr) (scope : Scope) (tail : Bool) (fc : FnCompiler),
    Emitted scope (leaks G e) (lambdas e) fc (compileExpr G e scope tail fc)
  | .literal _, _, _, _ => emitted_emit _
  | .var name, _, _, _ => emitted_compileVar G name
  | .letE name _ value body, scope, tail, fc => by
    have hvalue := compileExpr_emitted value scope false fc
    have hbody := compileExpr_emitted body ((name, (compileExpr G value scope false fc).binder) :: scope)
      tail ((compileExpr G value scope false fc).bind name
        (.binder (compileExpr G value scope false fc).binder))
    have hown : ∀ p ∈ [(name, (compileExpr G value scope false fc).binder)],
        p.2.fnId = (compileExpr G value scope false fc).fnId := by simp [FnCompiler.binder]
    exact (hvalue.trans ((emitted_bind name (.inr rfl)).trans (hbody.inner hown))).congr
      (by simp [leaks]) (by simp [lambdas])
  | .block statements result, scope, tail, fc =>
    (compileExprs_emitted [.pop] statements scope fc).trans (compileExpr_emitted result scope tail _)
  | .call callee args, scope, tail, fc => by
    rw [compileExpr, leaks, lambdas]
    cases G.callForm callee with
    | module name module op =>
      dsimp only
      cases higherOrder (module, op) with
      | some template =>
        exact ((emitted_note _ _ _).trans (compileInline_emitted template args scope [] _)).congr
          (nil_append _) (by omega)
      | none =>
        exact ((emitted_note _ _ _).trans
          ((compileExprs_emitted [] args scope _).trans (emitted_emit _))).congr (by simp) (by omega)
    | function name fnId =>
      exact ((compileExprs_emitted [] args scope fc).trans
        ((emitted_note _ _ _).trans (emitted_emit _))).congr (by simp) (by omega)
    | todo name => exact ((emitted_note _ _ _).trans (emitted_emit _)).congr rfl (by omega)
    | named name =>
      exact ((emitted_compileCallee G name).trans
        ((compileExprs_emitted [] args scope _).trans (emitted_emit _))).congr (by simp) (by omega)
    | value =>
      exact ((compileExpr_emitted callee scope false fc).trans
        ((compileExprs_emitted [] args scope _).trans (emitted_emit _))).congr (by simp) (by omega)
  | .constructor _ args, scope, _, fc =>
    ((compileExprs_emitted [] args scope fc).trans (emitted_emit _)).congr (by simp [leaks]) le_rfl
  | .matchE scrutinee arms, scope, tail, fc => by
    have harms := compileArms_emitted (compileExpr G scrutinee scope false fc).nextLocal arms scope tail
      ((compileExpr G scrutinee scope false fc).bind "__scrut" .temporary) []
    refine emitted_patchAll ?_ _
    exact ((compileExpr_emitted scrutinee scope false fc).trans
      ((emitted_bind "__scrut" (.inl rfl)).trans (harms.trans (emitted_emit _)))).congr
        (by simp [leaks]) (by simp [lambdas])
  | .recordLit fields, scope, _, fc =>
    ((compileFields_emitted fields scope fc).trans (emitted_emit _)).congr (by simp [leaks]) le_rfl
  | .tupleLit items, scope, _, fc | .listLit items, scope, _, fc =>
    ((compileExprs_emitted [] items scope fc).trans (emitted_emit _)).congr (by simp [leaks]) le_rfl
  | .fieldAccess value _, scope, _, fc =>
    ((compileExpr_emitted value scope false fc).trans (emitted_emit _)).congr (by simp [leaks]) le_rfl
  | .binOp op lhs rhs, scope, _, fc =>
    (((compileExpr_emitted lhs scope false fc).trans (compileExpr_emitted rhs scope false _)).trans
      (emitted_emitBinOp op)).congr (by simp [leaks]) le_rfl
  | .unaryOp op expr, scope, _, fc =>
    ((compileExpr_emitted expr scope false fc).trans (emitted_emitUnaryOp op)).congr
      (by simp [leaks]) le_rfl
  | .lambda params _ _ _ body, _, _, _ => emitted_compileLambda (params.map Prod.fst) body
  | .returnE value, scope, _, fc =>
    ((compileExpr_emitted value scope true fc).trans (emitted_emit _)).congr (by simp [leaks]) le_rfl

theorem compileExprs_emitted (after : List Op) : ∀ (es : List CExpr) (scope : Scope) (fc : FnCompiler),
    Emitted scope (leaksAll G es) (lambdasAll es) fc (compileExprs G after es scope fc)
  | [], _, _ => emitted_refl
  | e :: es, scope, fc =>
    (((compileExpr_emitted e scope false fc).trans (emitted_emitAll after)).trans
      (compileExprs_emitted after es scope _)).congr (by simp [leaksAll]) le_rfl

theorem compileFields_emitted : ∀ (fields : List (String × CExpr)) (scope : Scope) (fc : FnCompiler),
    Emitted scope (leaksFields G fields) (lambdasFields fields) fc (compileFields G fields scope fc)
  | [], _, _ => emitted_refl
  | (_, e) :: fields, scope, fc =>
    (compileExpr_emitted e scope false fc).trans (compileFields_emitted fields scope _)

theorem compileArms_emitted (scrut : Nat) : ∀ (arms : List (Pattern × CExpr)) (scope : Scope) (tail : Bool)
    (fc : FnCompiler) (ends : List Nat),
    Emitted scope [] (lambdasArms arms) fc (compileArms G scrut arms scope tail fc ends).1
  | [], _, _, _, _ => emitted_refl
  | (p, body) :: arms, scope, tail, fc, ends => by
    have htest := compilePatternTest_steps p ⟨fc.emit (.loadLocal scrut), [], []⟩
    have hbody := compileExpr_emitted body
      ((compilePatternTest p ⟨fc.emit (.loadLocal scrut), [], []⟩).bindings ++ scope) tail
      (compilePatternTest p ⟨fc.emit (.loadLocal scrut), [], []⟩).fc
    have hload : Emitted scope [] 0 fc (fc.emit (.loadLocal scrut)) := emitted_emit _
    have hown : ∀ q ∈ (compilePatternTest p ⟨fc.emit (.loadLocal scrut), [], []⟩).bindings,
        q.2.fnId = (compilePatternTest p ⟨fc.emit (.loadLocal scrut), [], []⟩).fc.fnId := by
      intro q hq
      rw [htest.bindings (by simp) q hq, htest.fnId]
    have harm := emitted_patchAll
      (hload.trans (htest.emitted.trans ((hbody.inner hown).trans (emitted_emit (.jump 0)))))
      (compilePatternTest p ⟨fc.emit (.loadLocal scrut), [], []⟩).fails
    -- the names and the slots of the arm are taken back
    have hnext : Emitted scope [] (lambdas body) fc
        ((compileExpr G body
            ((compilePatternTest p ⟨fc.emit (.loadLocal scrut), [], []⟩).bindings ++ scope) tail
            (compilePatternTest p ⟨fc.emit (.loadLocal scrut), [], []⟩).fc).endArm fc
          (compilePatternTest p ⟨fc.emit (.loadLocal scrut), [], []⟩).fails) :=
      { harm with
        nextLocal := le_rfl
        queued := fun hb hq =>
          have hq' := harm.queued hb hq
          ⟨hq'.below, hq'.around, hq'.distinct⟩
        count := harm.count.trans (by omega)
        kept := fun _ _ => rfl
        left := by simp }
    exact hnext.trans (compileArms_emitted scrut arms scope tail _ _)

theorem compileInline_emitted : ∀ (template : Template) (es : List CExpr) (scope : Scope)
    (slots : List Nat) (fc : FnCompiler),
    Emitted scope (leaksInline G template es) (lambdasAll es) fc
      (compileInline G template es scope slots fc)
  | [], _, _, _, _ => by
    rw [compileInline, leaksInline]
    exact emitted_refl.congr rfl (Nat.zero_le _)
  | _ :: _, [], _, _, _ => emitted_panic
  | steps :: template, e :: es, scope, slots, fc =>
    (((compileExpr_emitted e scope false fc).trans
      (emitted_steps steps ⟨compileExpr G e scope false fc, slots⟩)).trans
        (compileInline_emitted template es scope _ _)).congr (by simp [leaksInline]) le_rfl

end

end Expressions

end LexLang.Compiler
