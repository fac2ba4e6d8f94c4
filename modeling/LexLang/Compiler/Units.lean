/-
# LexLang.Compiler.Units — the functions of a program, one after the other

The lambdas that a body queues are compiled later, and queue lambdas of their own. Every lambda that
is queued gets its turn, and the ids are all different.
-/
import LexLang.Compiler.Tracked

namespace LexLang.Compiler

open LexLang.Ast
open List

section Units

variable {G : Globals} {pending : List PendingLambda} {functions n : Nat}

/-- The queue between two bodies: ids of their own, above those of the functions around. -/
def Waiting (pending : List PendingLambda) (functions : Nat) : Prop :=
  (FnCompiler.start 0 [] pending functions).Queued

theorem waiting_iff {fc : FnCompiler} : Waiting fc.pendingLambdas fc.functions ↔ fc.Queued :=
  ⟨fun h => ⟨h.below, h.around, h.distinct⟩, fun h => ⟨h.below, h.around, h.distinct⟩⟩

/-! ## One body -/

theorem compileBody_emitted (body : CExpr) (scope : Scope) (fc : FnCompiler) :
    Emitted scope (leaks G body) (lambdas body) fc (compileBody G body scope fc) :=
  ((compileExpr_emitted G body scope true fc).trans (emitted_emit .return)).congr (append_nil _) le_rfl

theorem rightly_compileBody_iff {body : CExpr} {scope : Scope} {fc : FnCompiler} (ho : Old scope fc)
    (hp : (compileBody G body scope fc).panicked = false) : Rightly G (compileBody G body scope fc) ↔
      Rightly G fc ∧ Undisturbed G scope.names body ∧ ∀ x ∈ reads G body, Agrees fc.locals scope x :=
  rightly_compileExpr_iff body scope true fc ho hp

theorem rightly_start_iff (fnId : Nat) (entries : List (String × Owner)) :
    Rightly G (.start fnId entries pending functions) ↔ ∀ pl ∈ pending, pl.Fine G :=
  ⟨fun h => h.2, fun h => ⟨fun _ hr => absurd hr not_mem_nil, h⟩⟩

theorem paramEntries_site (fnId : Nat) : ∀ (i : Nat) (params : List String),
    ∀ p ∈ paramEntries fnId i params, p.2.fnId = fnId ∧ ∃ slot, p.2.site = .entry slot
  | _, [], _, hp => by cases hp
  | i, _ :: params, p, hp => by
    rcases mem_cons.mp hp with rfl | hp
    · exact ⟨rfl, i, rfl⟩
    · exact paramEntries_site fnId (i + 1) params p hp

/-- Parameters store nothing. -/
theorem old_params (fnId i : Nat) (params : List String) (fc : FnCompiler) :
    Old (paramEntries fnId i params).reverse fc := by
  intro p hp _ pc hsite
  obtain ⟨_, slot, hslot⟩ := paramEntries_site fnId i params p (mem_reverse.mp hp)
  rw [hslot] at hsite
  cases hsite

section Lambda

variable {pl : PendingLambda} {rest : List PendingLambda}

variable (h : Waiting (pl :: rest) functions)
include h

theorem Waiting.tail : Waiting rest functions :=
  ⟨fun pl' hpl => h.below pl' (mem_cons_of_mem _ hpl),
    fun pl' hpl => h.around pl' (mem_cons_of_mem _ hpl), (pairwise_cons.mp h.distinct).2⟩

theorem Waiting.old : Old pl.inside (.start pl.fnId pl.entries rest functions) := by
  apply Old.append (old_params _ _ _ _)
  intro p hp hid
  have : p.2.fnId < pl.fnId := h.around pl mem_cons_self p hp
  have hid : p.2.fnId = pl.fnId := hid
  omega

theorem Waiting.inside_below : Below pl.inside (.start pl.fnId pl.entries rest functions) := by
  have hself : pl.fnId < functions := h.below pl mem_cons_self
  refine ⟨hself, ?_⟩
  intro p hp
  show p.2.fnId < functions
  rcases mem_append.mp hp with hp | hp
  · rw [(paramEntries_site _ _ _ p (mem_reverse.mp hp)).1]
    exact hself
  · exact (h.around pl mem_cons_self p hp).trans hself

omit h in
theorem compilePending_emitted (pl : PendingLambda) (rest : List PendingLambda) (functions : Nat) :
    Emitted pl.inside (leaks G pl.body) (lambdas pl.body) (.start pl.fnId pl.entries rest functions)
      (compilePending G pl rest functions) :=
  compileBody_emitted pl.body pl.inside _

/-- The queue after the body of a lambda. -/
theorem Waiting.step :
    Waiting (compilePending G pl rest functions).pendingLambdas (compilePending G pl rest functions).functions :=
  waiting_iff.mpr ((compilePending_emitted pl rest functions).queued h.inside_below (waiting_iff.mp h.tail))

theorem rightly_compilePending_iff (hp : (compilePending G pl rest functions).panicked = false) :
    Rightly G (compilePending G pl rest functions) ↔ ∀ pl' ∈ pl :: rest, pl'.Fine G := by
  refine (rightly_compileBody_iff h.old hp).trans ?_
  rw [rightly_start_iff, forall_mem_cons, and_comm]
  rfl

end Lambda

section Decl

variable {decl : FnDecl} {fnId : Nat}

/-- The parameters of a declared function. -/
def declParams (decl : FnDecl) : List String := decl.params.map Prod.fst

theorem compileFn_emitted (fnId : Nat) (decl : FnDecl) (pending : List PendingLambda) (functions : Nat) :
    Emitted (paramEntries fnId 0 (declParams decl)).reverse (leaks G decl.body) (lambdas decl.body)
      (.start fnId (ownedBy (paramEntries fnId 0 (declParams decl))) pending functions)
      (compileFn G fnId decl pending functions) :=
  compileBody_emitted decl.body _ _

theorem waiting_compileFn (h : Waiting pending functions) (hid : fnId < functions) :
    Waiting (compileFn G fnId decl pending functions).pendingLambdas
      (compileFn G fnId decl pending functions).functions := by
  refine waiting_iff.mpr ((compileFn_emitted fnId decl pending functions).queued ⟨hid, ?_⟩
    (waiting_iff.mp h))
  intro p hp
  rw [(paramEntries_site _ _ _ p (mem_reverse.mp hp)).1]
  exact hid

/-- In a declared function the map of names and the lexical environment are the parameters. -/
theorem agrees_params (fnId : Nat) (params : List String) (x : String) :
    Agrees (entryLocals 0 (ownedBy (paramEntries fnId 0 params)) fun _ => none)
      (paramEntries fnId 0 params).reverse x := by
  have hreverse : (ownedBy (paramEntries fnId 0 params)).reverse =
      ownedBy (paramEntries fnId 0 params).reverse := map_reverse.symm
  rw [Agrees, entryLocals_owner, hreverse, lookup_map_binder, Option.map_none, Option.or_none]

theorem rightly_compileFn_iff (hp : (compileFn G fnId decl pending functions).panicked = false) :
    Rightly G (compileFn G fnId decl pending functions) ↔
      (∀ pl ∈ pending, pl.Fine G) ∧ Undisturbed G {x | x ∈ declParams decl} decl.body := by
  have hnames : Scope.names (paramEntries fnId 0 (declParams decl)).reverse = {x | x ∈ declParams decl} := by
    ext x
    rw [Scope.names, map_reverse, map_fst_paramEntries]
    simp
  refine (rightly_compileBody_iff (old_params _ _ _ _) hp).trans ?_
  rw [rightly_start_iff, ← hnames]
  exact ⟨fun h => ⟨h.1, h.2.1⟩, fun h => ⟨h.1, h.2, fun x _ => agrees_params fnId (declParams decl) x⟩⟩

end Decl

/-! ## All bodies -/

/-- Every name of these functions is resolved by lexical scope. -/
def AllLexical (units : List FnCompiler) : Prop := ∀ u ∈ units, ∀ r ∈ u.refs, r.Lexical

theorem allLexical_compileLambdas_iff (pending : List PendingLambda) (functions : Nat) (h : Waiting pending functions)
    (hp : ∀ u ∈ compileLambdas G pending functions, u.panicked = false) :
    AllLexical (compileLambdas G pending functions) ↔ ∀ pl ∈ pending, pl.Fine G := by
  fun_induction compileLambdas G pending functions with
  | case1 => simp [AllLexical]
  | case2 functions pl rest fc ih =>
    rw [forall_mem_cons] at hp
    rw [← rightly_compilePending_iff h hp.1, Rightly, ← ih h.step hp.2, AllLexical, forall_mem_cons]
    exact Iff.rfl

theorem allLexical_compileFns_iff (decls : List FnDecl) (pending : List PendingLambda) (functions : Nat)
    (h : Waiting pending functions) (hids : ∀ decl ∈ decls, (G.functionNames decl.name).getD 0 < functions)
    (hp : ∀ u ∈ compileFns G decls pending functions, u.panicked = false) :
    AllLexical (compileFns G decls pending functions) ↔ (∀ pl ∈ pending, pl.Fine G) ∧
        ∀ decl ∈ decls, Undisturbed G {x | x ∈ declParams decl} decl.body := by
  induction decls generalizing pending functions with
  | nil =>
    rw [compileFns] at hp ⊢
    simpa using allLexical_compileLambdas_iff pending functions h hp
  | cons decl decls ih =>
    rw [compileFns] at hp ⊢
    rw [forall_mem_cons] at hp hids
    have hfunctions : functions ≤ _ :=
      (compileFn_emitted (G := G) ((G.functionNames decl.name).getD 0) decl pending functions).functions
    have hrest := ih _ _ (waiting_compileFn h hids.1)
      (fun d hd => Nat.lt_of_lt_of_le (hids.2 d hd) hfunctions) hp.2
    have hfirst := rightly_compileFn_iff hp.1
    rw [Rightly] at hfirst
    rw [AllLexical, forall_mem_cons, forall_mem_cons, ← and_assoc, ← hfirst, and_assoc, ← hrest]
    rfl

/-! ## The lambdas, in the order of their turns -/

variable (G)

def takenLambdas (pending : List PendingLambda) (functions : Nat) : List PendingLambda :=
  match pending with
  | [] => []
  | pl :: rest =>
    let fc := compilePending G pl rest functions
    pl :: takenLambdas fc.pendingLambdas fc.functions
termination_by queuedLambdas pending
decreasing_by exact queuedLambdas_compilePending G pl rest functions

/-- The queue when the declared functions are done. -/
def queueAfter : List FnDecl → List PendingLambda → Nat → List PendingLambda × Nat
  | [], pending, functions => (pending, functions)
  | decl :: decls, pending, functions =>
    let fc := compileFn G ((G.functionNames decl.name).getD 0) decl pending functions
    queueAfter decls fc.pendingLambdas fc.functions

variable {G}

theorem subset_takenLambdas (pending : List PendingLambda) (functions : Nat) :
    ∀ pl ∈ pending, pl ∈ takenLambdas G pending functions := by
  fun_induction takenLambdas G pending functions with
  | case1 => simp
  | case2 functions pl rest fc ih =>
    intro pl' hpl'
    rcases mem_cons.mp hpl' with rfl | hpl'
    · exact mem_cons_self
    · exact mem_cons_of_mem _ (ih pl' ((compilePending_emitted pl rest functions).pending pl' hpl'))

/-- Whoever gets a turn is in the queue or has a new id. -/
theorem takenLambdas_fresh (pending : List PendingLambda) (functions : Nat) :
    ∀ pl ∈ takenLambdas G pending functions, pl ∈ pending ∨ functions ≤ pl.fnId := by
  fun_induction takenLambdas G pending functions with
  | case1 => simp
  | case2 functions pl rest fc ih =>
    intro pl' hpl'
    have hemitted := compilePending_emitted (G := G) pl rest functions
    rcases mem_cons.mp hpl' with rfl | hpl'
    · exact .inl mem_cons_self
    · rcases ih pl' hpl' with hold | hnew
      · exact (hemitted.fresh pl' hold).imp_left (mem_cons_of_mem _)
      · exact .inr (hemitted.functions.trans hnew)

theorem takenLambdas_distinct (pending : List PendingLambda) (functions : Nat) (h : Waiting pending functions) :
    (takenLambdas G pending functions).Pairwise fun pl pl' => pl.fnId ≠ pl'.fnId := by
  fun_induction takenLambdas G pending functions with
  | case1 => exact List.Pairwise.nil
  | case2 functions pl rest fc ih =>
    refine pairwise_cons.mpr ⟨?_, ih h.step⟩
    intro pl' hpl'
    have hemitted := compilePending_emitted (G := G) pl rest functions
    have hself : pl.fnId < functions := h.below pl mem_cons_self
    have hlater : pl' ∈ rest ∨ functions ≤ pl'.fnId := by
      rcases takenLambdas_fresh _ _ pl' hpl' with hold | hnew
      · exact hemitted.fresh pl' hold
      · exact .inr (hemitted.functions.trans hnew)
    rcases hlater with hrest | hnew
    · exact (pairwise_cons.mp h.distinct).1 pl' hrest
    · omega

/-- What every function is: the body of a declared function or of a lambda that had its turn. -/
structure UnitOf (G : Globals) (decls : List FnDecl) (taken : List PendingLambda) (u : FnCompiler) :
    Prop where
  listed : ∀ pl ∈ u.pendingLambdas, pl ∈ taken
  body : ∃ body scope fnId entries pending functions,
    u = compileBody G body scope (.start fnId entries pending functions) ∧
      ((∃ decl ∈ decls, fnId = (G.functionNames decl.name).getD 0 ∧
        entries = ownedBy (paramEntries fnId 0 (declParams decl))) ∨
      ∃ pl ∈ taken, fnId = pl.fnId ∧ entries = pl.entries)

theorem unitOf_compileLambdas (decls : List FnDecl) (pending : List PendingLambda) (functions : Nat)
    (taken : List PendingLambda) (h : ∀ pl ∈ takenLambdas G pending functions, pl ∈ taken) :
    ∀ u ∈ compileLambdas G pending functions, UnitOf G decls taken u := by
  fun_induction compileLambdas G pending functions with
  | case1 => simp
  | case2 functions pl rest fc ih =>
    rw [takenLambdas, forall_mem_cons] at h
    intro u hu
    rcases mem_cons.mp hu with rfl | hu
    · exact ⟨fun pl' hpl' => h.2 pl' (subset_takenLambdas _ _ pl' hpl'),
        pl.body, pl.inside, pl.fnId, pl.entries, rest, functions, rfl, .inr ⟨pl, h.1, rfl, rfl⟩⟩
    · exact ih h.2 u hu

theorem queueAfter_subset (decls : List FnDecl) (pending : List PendingLambda) (functions : Nat) :
    ∀ pl ∈ pending, pl ∈ (queueAfter G decls pending functions).1 := by
  induction decls generalizing pending functions with
  | nil => exact fun _ => id
  | cons decl decls ih =>
    intro pl hpl
    exact ih _ _ pl ((compileFn_emitted (G := G) _ decl pending functions).pending pl hpl)

theorem waiting_queueAfter (decls : List FnDecl) (pending : List PendingLambda) (functions : Nat)
    (h : Waiting pending functions) (hnew : ∀ pl ∈ pending, n ≤ pl.fnId) (hn : n ≤ functions)
    (hids : ∀ decl ∈ decls, (G.functionNames decl.name).getD 0 < functions) :
    Waiting (queueAfter G decls pending functions).1 (queueAfter G decls pending functions).2 ∧
      (∀ pl ∈ (queueAfter G decls pending functions).1, n ≤ pl.fnId) ∧
        n ≤ (queueAfter G decls pending functions).2 := by
  induction decls generalizing pending functions with
  | nil => exact ⟨h, hnew, hn⟩
  | cons decl decls ih =>
    rw [forall_mem_cons] at hids
    have hemitted := compileFn_emitted (G := G) ((G.functionNames decl.name).getD 0) decl pending functions
    have hfunctions : functions ≤ _ := hemitted.functions
    refine ih _ _ (waiting_compileFn h hids.1) ?_ (hn.trans hfunctions)
      (fun d hd => Nat.lt_of_lt_of_le (hids.2 d hd) hfunctions)
    intro pl hpl
    rcases hemitted.fresh pl hpl with hold | hfresh
    · exact hnew pl hold
    · exact hn.trans hfresh

theorem unitOf_compileFns (all decls : List FnDecl) (pending : List PendingLambda) (functions : Nat)
    (taken : List PendingLambda) (hall : ∀ decl ∈ decls, decl ∈ all)
    (h : ∀ pl ∈ takenLambdas G (queueAfter G decls pending functions).1
      (queueAfter G decls pending functions).2, pl ∈ taken) :
    ∀ u ∈ compileFns G decls pending functions, UnitOf G all taken u := by
  induction decls generalizing pending functions with
  | nil => exact unitOf_compileLambdas all pending functions taken h
  | cons decl decls ih =>
    rw [forall_mem_cons] at hall
    intro u hu
    rcases mem_cons.mp hu with rfl | hu
    · refine ⟨?_, decl.body, _, _, _, pending, functions, rfl, .inl ⟨decl, hall.1, rfl, rfl⟩⟩
      intro pl hpl
      exact h pl (subset_takenLambdas _ _ pl (queueAfter_subset decls _ _ pl hpl))
    · exact ih _ _ hall.2 h u hu

end Units

end LexLang.Compiler
