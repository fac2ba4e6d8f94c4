/-
# LexLang.Ast.Transforms — renaming a local, and inlining a `let`

`rename_local` and `inline_let` of `lex-ast/src/transforms.rs`. The first does not look for clashes of the new
name, and `renameLocal_iff` says what that costs; the second refuses a value one of whose variables the
body binds again, and `inlineLet_preserves` says that this is enough.
-/
import LexLang.Ast.DeadBranch
import LexLang.Ast.NodeIds
import LexLang.Ast.Substitution

namespace LexLang.Ast

open List Option

/-! ## The transforms -/

/-- The kind of an expression, in errors. -/
def cexprKind : CExpr → String
  | .literal _ => "Literal"
  | .var _ => "Var"
  | .call _ _ => "Call"
  | .letE _ _ _ _ => "Let"
  | .matchE _ _ => "Match"
  | .block _ _ => "Block"
  | .constructor _ _ => "Constructor"
  | .recordLit _ => "RecordLit"
  | .tupleLit _ => "TupleLit"
  | .listLit _ => "ListLit"
  | .fieldAccess _ _ => "FieldAccess"
  | .lambda _ _ _ _ _ => "Lambda"
  | .binOp _ _ _ => "BinOp"
  | .unaryOp _ _ => "UnaryOp"
  | .returnE _ => "Return"

/-- **The place of a node** in the body of a function. A root that is no expression is refused as the
transform says. -/
def targetOf (stage : Stage) (id : NodeId) (atRoot : TransformError) :
    Except TransformError (FnDecl × Place) :=
  match stage with
  | .typeDecl _ => .error (.nonFnTarget "TypeDecl")
  | .importDecl _ => .error (.nonFnTarget "Import")
  | .fnDecl fd =>
    match parseNodeId id with
    | .error e => .error e
    | .ok [] => .error atRoot
    | .ok (first :: inner) =>
      if first ≠ fd.params.length + 1 then .error (.unknownNode id)
      else (navigateToExpr id fd.body inner).map fun place => (fd, place)

/-- **Rename a local.** -/
def renameLocal (stage : Stage) (letNode : NodeId) (newName : String) : Except TransformError Stage :=
  match targetOf stage letNode (.notALet letNode "stage_root") with
  | .error e => .error e
  | .ok (fd, target) =>
    match target.expr with
    | .letE name ty value body =>
      if name = newName then .error (.renameNoOp name)
      else .ok (.fnDecl { fd with
        body := target.put (.letE newName ty value (rewriteVarInExpr name newName body)) })
    | e => .error (.notALet letNode (cexprKind e))

/-- The first part of a value that is refused, `check_inlinable`. -/
def notInlinable : CExpr → Option String
  | .literal _ | .var _ => none
  | .fieldAccess value _ => notInlinable value
  | .binOp _ lhs rhs => (notInlinable lhs).or (notInlinable rhs)
  | .unaryOp _ expr => notInlinable expr
  | .tupleLit items | .listLit items => (items.map notInlinable).findSome? id
  | e => some (cexprKind e)
termination_by e => sizeOf e
decreasing_by
  all_goals simp_wf
  all_goals first
    | omega
    | have := sizeOf_lt_of_mem ‹_ ∈ _›; omega

/-- `walk_binders`: every binder in an expression, in order. -/
def walkBinders : CExpr → List String
  | .letE name _ value body => name :: (walkBinders value ++ walkBinders body)
  | .lambda params _ _ _ body => params.map Prod.fst ++ walkBinders body
  | .matchE scrutinee arms =>
    walkBinders scrutinee ++ arms.flatMap fun arm => patternBindings arm.1 ++ walkBinders arm.2
  | .call callee args => walkBinders callee ++ args.flatMap walkBinders
  | .block statements result => statements.flatMap walkBinders ++ walkBinders result
  | .constructor _ args => args.flatMap walkBinders
  | .recordLit fields => fields.flatMap fun f => walkBinders f.2
  | .tupleLit items | .listLit items => items.flatMap walkBinders
  | .fieldAccess value _ => walkBinders value
  | .binOp _ lhs rhs => walkBinders lhs ++ walkBinders rhs
  | .unaryOp _ expr => walkBinders expr
  | .returnE value => walkBinders value
  | .var _ | .literal _ => []
termination_by e => sizeOf e
decreasing_by
  all_goals simp_wf
  all_goals first
    | omega
    | have := sizeOf_lt_of_mem ‹_ ∈ _›; omega
    | have := sizeOf_snd_lt_of_mem ‹_ ∈ _›; omega

/-- **Inline a `let`.** At the root of the body the source takes a path of its own, to the same end. -/
def inlineLet (stage : Stage) (letNode : NodeId) : Except TransformError Stage :=
  match targetOf stage letNode (.notALet letNode "stage_root") with
  | .error e => .error e
  | .ok (fd, target) =>
    match target.expr with
    | .letE name _ value body =>
      match notInlinable value, (walkBinders body).find? (· ∈ freeVars value) with
      | some kind, _ => .error (.inlineLetRefused ("let value contains a `" ++ kind ++
          "` expression; slice 3 only inlines literal/var/field/binop/unaryop/tuple/list trees"))
      | none, some captured => .error (.inlineLetRefused ("value's free var `" ++ captured ++
          "` is re-bound in the body; inlining would capture"))
      | none, none => .ok (.fnDecl { fd with body := target.put (substituteInExpr name value body) })
    | e => .error (.notALet letNode (cexprKind e))

/-- `ExtractFnSpec`: a function without its body. -/
structure ExtractFnSpec where
  name : String
  typeParams : List String
  params : List (String × TypeExpr)
  returnType : TypeExpr
  effects : List Effect

/-- Names between brackets, as `{:?}` writes them. -/
def debugNames (debugStr : String → String) (left right : String) (names : List String) : String :=
  left ++ ", ".intercalate ((names.eraseDups.mergeSort fun a b => decide (a ≤ b)).map debugStr) ++ right

/-- **Extract a function**: the function with a call in the place of the expression, and the function called. -/
def extractFunction (debugStr : String → String) (stage : Stage) (exprNode : NodeId) (spec : ExtractFnSpec) :
    Except TransformError (Stage × Stage) :=
  match targetOf stage exprNode (.unknownNode exprNode) with
  | .error e => .error e
  | .ok (fd, target) =>
    let free := freeVars target.expr
    let declared := spec.params.map Prod.fst
    if free ⊆ declared ∧ declared ⊆ free then
      .ok (.fnDecl { fd with body := target.put (.call (.var spec.name) (declared.map .var)) },
        .fnDecl
          { doc := [], name := spec.name, typeParams := spec.typeParams, params := spec.params, effects := spec.effects
            effectRowVar := none, returnType := spec.returnType, body := target.expr, examples := [] })
    else .error (.extractFnRefused ("free vars " ++ debugNames debugStr "\x7b" "\x7d" free ++
      " differ from declared params " ++ debugNames debugStr "\x7b" "\x7d" declared ++ ": missing " ++
      debugNames debugStr "[" "]" (free.filter (· ∉ declared)) ++ ", extra " ++
      debugNames debugStr "[" "]" (declared.filter (· ∉ free))))

/-! ## Places -/

/-- What is bound in the child of a node with an index. -/
def bindersAt : CExpr → Nat → List String
  | .letE name _ _ _, 1 => [name]
  | .matchE _ arms, i + 1 => ((arms[i / 2]?).map fun arm => patternBindings arm.1).getD []
  | .lambda params _ _ _ _, _ => params.map Prod.fst
  | _, _ => []

/-- What is bound on the way along some indices. -/
def pathBinders : CExpr → List Nat → List String
  | _, [] => []
  | e, i :: path => bindersAt e i ++ (stepExpr e i).elim [] fun place => pathBinders place.expr path

theorem forall₂_set {α : Type} {R : α → α → Prop} {x y : α} : ∀ {xs : List α} {i : Nat}, xs[i]? = some x → R y x →
    (∀ x ∈ xs, R x x) → Forall₂ R (xs.set i y) xs
  | _ :: _, 0, h, hy, hrefl => by
    obtain rfl := some.inj h
    exact .cons hy (forall₂_same.mpr fun x hx => hrefl x (mem_cons_of_mem _ hx))
  | x :: _, i + 1, h, hy, hrefl =>
    .cons (hrefl x mem_cons_self) (forall₂_set h hy fun x hx => hrefl x (mem_cons_of_mem _ hx))

variable {e : CExpr}

variable {place : Place}

theorem stepExpr_scopes {c : CExpr} {i : Nat} (h : stepExpr e i = some place) :
    (bindersAt e i, place.expr) ∈ scopes e ∧ ∀ R : List String → CExpr → CExpr → Prop,
      R (bindersAt e i) c place.expr → (∀ c ∈ scopes e, R c.1 c.2 c.2) → Lifts R (place.put c) e := by
  have hsame : ∀ {R : CExpr → CExpr → Prop} {es : List CExpr}, (∀ e ∈ es, R e e) → Forall₂ R es es :=
    forall₂_same.mpr
  cases e <;> simp only [stepExpr] at h <;>
    simp only [scopes, forall_mem_cons, forall_mem_append, List.forall_mem_map] <;>
    simp only [mem_cons, mem_append, List.mem_map, not_mem_nil, or_false, false_implies,
      implies_true, and_true]
  case literal | var => cases h
  case call callee args =>
    split_ifs at h with hi
    · subst hi
      cases h
      exact ⟨.inl rfl, fun R hc h => .call hc (hsame h.2)⟩
    · obtain ⟨x, hx, rfl⟩ := map_eq_some_iff.mp h
      exact ⟨.inr ⟨x, mem_of_getElem? hx, rfl⟩, fun R hc h =>
        .call h.1 (forall₂_set hx hc h.2)⟩
  case matchE scrutinee arms =>
    rcases i with _ | i
    · cases h
      exact ⟨.inl rfl, fun R hc h =>
        .matchE hc (forall₂_same.mpr fun arm harm => ⟨rfl, h.2 arm harm⟩)⟩
    · simp only [Nat.succ_ne_zero, if_false, Nat.add_sub_cancel] at h
      split_ifs at h
      obtain ⟨arm, harm, rfl⟩ := map_eq_some_iff.mp h
      simp only [bindersAt, harm]
      exact ⟨.inr ⟨arm, mem_of_getElem? harm, rfl⟩, fun R hc h =>
        .matchE h.1 (forall₂_set harm ⟨rfl, hc⟩ fun arm harm => ⟨rfl, h.2 arm harm⟩)⟩
  case block statements result =>
    split_ifs at h with hlt heq
    · obtain ⟨x, hx, rfl⟩ := map_eq_some_iff.mp h
      exact ⟨.inl ⟨x, mem_of_getElem? hx, rfl⟩, fun R hc h =>
        .block (forall₂_set hx hc h.1) h.2⟩
    · cases h
      exact ⟨.inr rfl, fun R hc h => .block (hsame h.1) hc⟩
  case recordLit fields =>
    obtain ⟨f, hf, rfl⟩ := map_eq_some_iff.mp h
    exact ⟨⟨f, mem_of_getElem? hf, rfl⟩, fun R hc hfields =>
      .recordLit (forall₂_set hf ⟨rfl, hc⟩ fun f hf => ⟨rfl, hfields f hf⟩)⟩
  case constructor | tupleLit | listLit =>
    obtain ⟨x, hx, rfl⟩ := map_eq_some_iff.mp h
    refine ⟨⟨x, mem_of_getElem? hx, rfl⟩, fun R hc hall => ?_⟩
    constructor
    exact forall₂_set hx hc hall
  case letE | binOp =>
    rcases i with _ | _ | i <;> cases h
    · exact ⟨.inl rfl, fun R hc h => by cases h; constructor <;> assumption⟩
    · exact ⟨.inr rfl, fun R hc h => by cases h; constructor <;> assumption⟩
  case fieldAccess | lambda | unaryOp | returnE =>
    split_ifs at h
    cases h
    exact ⟨rfl, fun R hc _ => by constructor; exact hc⟩

theorem Env.bindAll_append {V : Type} (env : Env V) (binds binds' : List (String × V)) :
    env.bindAll (binds ++ binds') = (env.bindAll binds).bindAll binds' := foldl_append

variable {id : NodeId}

/-- **Another expression in a place.** -/
theorem eval_put {M : Type → Type} {V : Type} [Monad M] {language : Language M V} (harity : language.ChecksArity)
    {c : CExpr} : ∀ {path : List Nat} {e : CExpr} {place : Place} {env env' : Env V},
      navigateToExpr id e path = .ok place → (∀ n ∈ freeVars e, env n = env' n) →
        language.Alike env env' (pathBinders e path) c place.expr →
          language.eval env (place.put c) = language.eval env' e
  | [], _, _, _, _, hplace, _, hc => by
    obtain rfl := Except.ok.inj hplace
    exact hc.here
  | i :: path, e, place, env, env', hplace, hagree, hc => by
    rw [navigateToExpr] at hplace
    cases houter : stepExpr e i with
    | none =>
      rw [houter] at hplace
      cases hplace
    | some outer =>
      rw [houter] at hplace
      cases hinner : navigateToExpr id outer.expr path with
      | error _ =>
        simp only [hinner] at hplace
        cases hplace
      | ok inner =>
        simp only [hinner] at hplace
        obtain rfl := Except.ok.inj hplace
        rw [pathBinders, houter] at hc
        obtain ⟨hmem, hlifts⟩ := stepExpr_scopes (c := inner.put c) houter
        have hbelow : ∀ c ∈ scopes e, ∀ binds : List (String × V), binds.map Prod.fst = c.1 →
            ∀ n ∈ freeVars c.2, env.bindAll binds n = env'.bindAll binds n :=
          fun c hmem binds hbinds n hn => Language.bindAll_congr hbinds fun hin =>
            hagree n (mem_freeVars_iff.mpr (.inr ⟨c, hmem, hn, hin⟩))
        refine Language.eval_of_lifts harity (hlifts _ (fun binds hbinds => ?_) fun c hmem binds hbinds =>
          Language.eval_congr_env harity c.2 _ _ (hbelow c hmem binds hbinds))
        refine eval_put harity hinner (hbelow _ hmem binds hbinds) fun binds' hbinds' => ?_
        rw [← Env.bindAll_append, ← Env.bindAll_append]
        exact hc _ (by rw [map_append, hbinds, hbinds']; rfl)

theorem targetOf_eq_ok {fd fd' : FnDecl} {e : TransformError}
    (h : targetOf (.fnDecl fd) id e = .ok (fd', place)) : fd' = fd ∧ ∃ path,
      parseNodeId id = .ok ((fd.params.length + 1) :: path) ∧ navigateToExpr id fd.body path = .ok place := by
  simp only [targetOf] at h
  split at h
  · cases h
  · cases h
  · rename_i first path hparse
    split_ifs at h with hfirst
    cases hplace : navigateToExpr id fd.body path with
    | error _ =>
      rw [hplace] at h
      cases h
    | ok place' =>
      rw [hplace] at h
      cases h
      rw [not_not] at hfirst
      exact ⟨rfl, path, hfirst ▸ hparse, hplace⟩

/-! ## Renaming -/

variable {name : String}

variable {path : List Nat}

section Renaming

variable {old new : String}

/-- A variable occurs free in a place. -/
def OccursAt (name : String) (e : CExpr) (path : List Nat) : Prop := ∃ binders, Occurs name e path binders

theorem occursAt_nil : OccursAt name e [] ↔ e = .var name :=
  ⟨fun ⟨_, h⟩ => by cases h; rfl, fun h => h ▸ ⟨[], .here⟩⟩

theorem occursAt_cons {i : Nat} :
    OccursAt name e (i :: path) ↔ ∃ c, (scopes e)[i]? = some c ∧ name ∉ c.1 ∧ OccursAt name c.2 path := by
  constructor
  · rintro ⟨_, _ | ⟨hc, hname, h⟩⟩
    exact ⟨_, hc, hname, _, h⟩
  · rintro ⟨c, hc, hname, _, h⟩
    exact ⟨_, .under hc hname h⟩

/-- **Nothing is captured**: the new name is not free in the scope, and wherever the old one occurs in it, the
new one is not bound. -/
def CaptureFree (old new : String) (scope : CExpr) : Prop :=
  new ∉ freeVars scope ∧ ∀ path binders, Occurs old scope path binders → new ∉ binders

theorem scopes_rewriteVar (e : CExpr) : scopes (rewriteVarInExpr old new e) = (scopes e).map fun c =>
    (c.1, if old ∈ c.1 then c.2 else rewriteVarInExpr old new c.2) := by
  by_cases hvar : ∃ n, e = .var n
  · obtain ⟨n, rfl⟩ := hvar
    rw [rewriteVarInExpr, substituteInExpr]
    split_ifs <;> rfl
  · exact scopes_substituteInExpr (not_exists.mp hvar)

theorem rewriteVar_eq_var_iff (hne : e ≠ .var new) : rewriteVarInExpr old new e = .var new ↔ e = .var old := by
  cases e <;> simp_all [rewriteVarInExpr, substituteInExpr]

/-- **Without a capture the new name occurs where the old one did.** -/
theorem occursAt_rename : ∀ {path : List Nat} {e : CExpr}, CaptureFree old new e →
    (OccursAt new (rewriteVarInExpr old new e) path ↔ OccursAt old e path)
  | [], e, h => by
    rw [occursAt_nil, occursAt_nil]
    exact rewriteVar_eq_var_iff fun he => h.1 (mem_freeVars_iff.mpr (.inl he))
  | i :: path, e, h => by
    rw [occursAt_cons, occursAt_cons, scopes_rewriteVar, getElem?_map]
    cases hc : (scopes e)[i]? with
    | none => simp
    | some c =>
      simp only [map_some, some.injEq, exists_eq_left']
      have hmem := mem_of_getElem? hc
      have hfree : new ∉ c.1 → new ∉ freeVars c.2 := fun hnew hin =>
        h.1 (mem_freeVars_iff.mpr (.inr ⟨c, hmem, hin, hnew⟩))
      by_cases hold : old ∈ c.1
      · rw [if_pos hold]
        exact ⟨fun ⟨hnew, hoccurs⟩ => absurd ((mem_freeVars_iff_occurs c.2).mpr ⟨path, hoccurs⟩) (hfree hnew),
          fun hoccurs => absurd hold hoccurs.1⟩
      · rw [if_neg hold]
        by_cases hnew : new ∈ c.1
        · exact ⟨fun hoccurs => absurd hnew hoccurs.1, fun ⟨_, _, hoccurs⟩ =>
            absurd (mem_append_left _ hnew) (h.2 _ _ (.under hc hold hoccurs))⟩
        · rw [occursAt_rename ⟨hfree hnew, fun _ _ hoccurs hin =>
            h.2 _ _ (.under hc hold hoccurs) (mem_append_right _ hin)⟩]
          exact and_congr_left' (iff_of_true hnew hold)

/-- With one it does not: it occurred before, or what binds it is in the way. -/
theorem captureFree_of_occursAt (hne : old ≠ new)
    (h : ∀ path, OccursAt new (rewriteVarInExpr old new e) path ↔ OccursAt old e path) : CaptureFree old new e := by
  have hkept : ∀ {e : CExpr} {path : List Nat} {binders : List String}, Occurs new e path binders →
      OccursAt new (rewriteVarInExpr old new e) path := by
    intro e path binders hoccurs
    induction hoccurs with
    | here => exact occursAt_nil.mpr (by rw [rewriteVarInExpr, substituteInExpr, if_neg hne.symm])
    | @under e i c path binders hc hname hoccurs ih =>
      rw [occursAt_cons, scopes_rewriteVar, getElem?_map, hc]
      refine ⟨_, rfl, hname, ?_⟩
      show OccursAt new (if old ∈ c.1 then c.2 else rewriteVarInExpr old new c.2) path
      split_ifs
      · exact ⟨_, hoccurs⟩
      · exact ih
  have hone : ∀ {e : CExpr} {path : List Nat} {binders : List String}, Occurs new e path binders →
      ¬ OccursAt old e path := by
    intro e path binders hoccurs
    induction hoccurs with
    | here => exact fun h => hne (CExpr.var.inj (occursAt_nil.mp h)).symm
    | under hc _ _ ih =>
      intro h
      obtain ⟨c, hc', -, h⟩ := occursAt_cons.mp h
      obtain rfl := some.inj (hc.symm.trans hc')
      exact ih h
  have hlost : ∀ {e : CExpr} {path : List Nat} {binders : List String}, Occurs old e path binders →
      new ∈ binders → ¬ OccursAt new (rewriteVarInExpr old new e) path := by
    intro e path binders hoccurs
    induction hoccurs with
    | here => exact fun h => absurd h not_mem_nil
    | under hc hold _ ih =>
      intro hin h
      obtain ⟨c', hc', hnew, h⟩ := occursAt_cons.mp h
      rw [scopes_rewriteVar, getElem?_map, hc] at hc'
      obtain rfl := some.inj hc'
      simp only [if_neg hold] at h
      exact ih ((mem_append.mp hin).resolve_left hnew) h
  constructor
  · intro hfree
    obtain ⟨path, binders, hoccurs⟩ := (mem_freeVars_iff_occurs e).mp hfree
    exact hone hoccurs ((h path).mp (hkept hoccurs))
  · intro path binders hoccurs hin
    exact hlost hoccurs hin ((h path).mpr ⟨_, hoccurs⟩)

/-- Two expressions come to the same, in every language whose closures check their arity. -/
def SameMeaning (e e' : CExpr) : Prop := ∀ (M : Type → Type) (V : Type) [Monad M] (language : Language M V),
  language.ChecksArity → ∀ env, language.eval env e = language.eval env e'

/-- **Renaming is faithful exactly when nothing is captured**: then the function means the same, and the new name
is free in the scope where the old one was. -/
theorem renameLocal_iff {fd fd' : FnDecl} {id : NodeId} (h : renameLocal (.fnDecl fd) id new = .ok (.fnDecl fd')) :
    ∃ place old ty value scope, Navigates fd id place ∧ place.expr = .letE old ty value scope ∧
      ((SameMeaning fd'.body fd.body ∧
        ∀ path, OccursAt new (rewriteVarInExpr old new scope) path ↔ OccursAt old scope path) ↔
      CaptureFree old new scope) := by
  unfold renameLocal at h
  split at h
  · cases h
  rename_i fd₀ target htarget
  obtain ⟨rfl, path, hparse, hplace⟩ := targetOf_eq_ok htarget
  split at h
  · rename_i old ty value scope hlet
    split_ifs at h with hne
    obtain rfl := Stage.fnDecl.inj (Except.ok.inj h)
    refine ⟨target, old, ty, value, scope, ⟨path, hparse, hplace⟩, hlet, fun hsame =>
      captureFree_of_occursAt hne hsame.2, fun hfree => ⟨?_, fun path => occursAt_rename hfree⟩⟩
    intro M V _ language harity env
    refine eval_put harity hplace (fun _ _ => rfl) fun binds _ => ?_
    rw [hlet, Language.eval]
    refine congrArg _ (funext fun v => Language.eval_substituteInExpr harity scope _ _ ?_ ?_)
    · intro n hn hold
      have hnew : n ≠ new := fun heq => hfree.1 (heq ▸ hn)
      simp [Env.bind, hold, hnew]
    · intro path binders hoccurs env₁ hagree
      rw [Language.eval, Language.eval, hagree new (hfree.2 path binders hoccurs)]
      simp [Env.bind]
  · cases h

end Renaming

/-- `let a = 1; let b = 2; a`, in a function, with a name for `a`. -/
def twoLets (name : String) : FnDecl := { constantOne with
  body := .letE name none (.literal (.int 1)) (.letE "b" none (.literal (.int 2)) (.var name)) }

theorem renameLocal_twoLets (hname : "a" ≠ name) :
    renameLocal (.fnDecl (twoLets "a")) "n_0.1" name = .ok (.fnDecl (twoLets name)) := by
  have hparse : parseNodeId "n_0.1" = .ok [1] := by decide +kernel
  simp [renameLocal, targetOf, hparse, twoLets, constantOne, navigateToExpr, Place.here, Except.map,
    rewriteVarInExpr, substituteInExpr, hname]

theorem renameLocal_iff_twoLets : ∃ place old ty value scope, Navigates (twoLets "a") "n_0.1" place ∧
    place.expr = .letE old ty value scope ∧ ((SameMeaning (twoLets "c").body (twoLets "a").body ∧
        ∀ path, OccursAt "c" (rewriteVarInExpr old "c" scope) path ↔ OccursAt old scope path) ↔
      CaptureFree old "c" scope) :=
  renameLocal_iff (renameLocal_twoLets (by decide))

/-- **An inner `let` takes the renamed variable**: with `a` renamed to `b`, the function is 2 and not 1. -/
theorem renamed_to_inner : ¬ ∀ (fd fd' : FnDecl) (id : NodeId) (new : String),
    renameLocal (.fnDecl fd) id new = .ok (.fnDecl fd') → SameMeaning fd'.body fd.body := by
  intro h
  have hsame := h _ _ _ _ (@renameLocal_twoLets "b" (by decide)) Option PlainValue plainLanguage
    (fun _ _ _ _ => rfl) fun _ => none
  cases hsame

/-! ## Inlining -/

/-- What stands in a place. -/
def subAt : CExpr → List Nat → Option CExpr
  | e, [] => some e
  | e, i :: path => (scopes e)[i]?.bind fun c => subAt c.2 path

variable {n : String}

/-- **Where the variable is free stands the replacement; every other variable stands where it stood.** -/
theorem subAt_substituteInExpr {replacement : CExpr} : ∀ {path : List Nat} {e : CExpr},
    subAt e path = some (.var n) →
      OccursAt name e path ∧ subAt (substituteInExpr name replacement e) path = some replacement ∨
        ¬ OccursAt name e path ∧ subAt (substituteInExpr name replacement e) path = some (.var n)
  | [], e, h => by
    obtain rfl := some.inj h
    rw [occursAt_nil, substituteInExpr, CExpr.var.injEq]
    split_ifs with heq
    · exact .inl ⟨heq, rfl⟩
    · exact .inr ⟨heq, rfl⟩
  | i :: path, e, h => by
    obtain ⟨c, hc, h⟩ := bind_eq_some_iff.mp h
    have hvar : ∀ n, e ≠ .var n := by
      rintro n rfl
      cases hc
    have hsub : subAt (substituteInExpr name replacement e) (i :: path) =
        subAt (if name ∈ c.1 then c.2 else substituteInExpr name replacement c.2) path := by
      rw [subAt, scopes_substituteInExpr hvar, getElem?_map, hc]
      rfl
    have hoccurs : OccursAt name e (i :: path) ↔ name ∉ c.1 ∧ OccursAt name c.2 path := by
      simp only [occursAt_cons, hc, some.injEq, exists_eq_left']
    rw [hsub, hoccurs]
    split_ifs with hin
    · exact .inr ⟨fun hoccurs => hoccurs.1 hin, h⟩
    · simpa [hin] using subAt_substituteInExpr h

theorem mem_walkBinders_iff : n ∈ walkBinders e ↔ ∃ c ∈ scopes e, n ∈ c.1 ∨ n ∈ walkBinders c.2 := by
  cases e <;> simp [walkBinders, scopes]
  case letE => exact or_left_comm
  case recordLit => exact exists_comm.trans (exists_congr fun _ => exists_and_right)

/-- `walk_binders` passes every binder that a free occurrence stands under. -/
theorem subset_walkBinders {binders : List String} (h : Occurs name e path binders) : binders ⊆ walkBinders e := by
  induction h with
  | here => exact nil_subset _
  | under hc _ _ ih =>
    intro n hn
    exact mem_walkBinders_iff.mpr ⟨_, mem_of_getElem? hc, (mem_append.mp hn).imp_right fun hn => ih hn⟩

section Inlining

variable {M : Type → Type} {V : Type} [Monad M]

/-- **A run comes to a place only in environments with a property**: whatever comes to the same there as what
stands in the place can stand in it as well. -/
def Language.OnlyIn (language : Language M V) (e : CExpr) (place : Place) (env : Env V) (P : Env V → Prop) : Prop :=
  ∀ c, (∀ env₁, P env₁ → language.eval env₁ c = language.eval env₁ place.expr) →
    language.eval env (place.put c) = language.eval env e

theorem Language.onlyIn_of_forall {language : Language M V} (harity : language.ChecksArity)
    (hplace : navigateToExpr id e path = .ok place) {env : Env V}
    {P : Env V → Prop} (h : ∀ binds : List (String × V), binds.map Prod.fst = pathBinders e path →
      P (env.bindAll binds)) : language.OnlyIn e place env P :=
  fun _ hc => eval_put harity hplace (fun _ _ => rfl) fun binds hbinds => hc _ (h binds hbinds)

/-- A value that comes to something without error, effect or early return. -/
def Language.Plain (language : Language M V) (value : CExpr) (env : Env V) : Prop :=
  ∃ v, language.eval env value = pure v

end Inlining

section Extracting

variable {M : Type → Type} {V : Type}

theorem Env.bindAll_zip_map {f : String → V} : ∀ {names : List String} {env : Env V}, n ∈ names →
    env.bindAll (names.zip (names.map f)) n = some (f n)
  | first :: names, env, h => by
    show (env.bind first (f first)).bindAll (names.zip (names.map f)) n = some (f n)
    by_cases hin : n ∈ names
    · exact bindAll_zip_map hin
    · obtain rfl := (mem_cons.mp h).resolve_right hin
      have hfst : (names.zip (names.map f)).map Prod.fst = names := map_fst_zip (by simp)
      rw [bindAll_of_notMem _ (by rwa [hfst])]
      exact if_pos rfl

variable [Monad M]

/-- A function of the program, called. -/
def Language.call (language : Language M V) (env : Env V) (fd : FnDecl) (vs : List V) : M V :=
  language.scope (language.eval (env.bindAll ((fd.params.map Prod.fst).zip vs)) fd.body)

variable {language : Language M V} {env : Env V}

theorem Language.evalAll_vars [LawfulMonad M] {f : String → V} : ∀ {names : List String},
    (∀ n ∈ names, env n = some (f n)) → language.evalAll env (names.map .var) = pure (names.map f)
  | [], _ => rfl
  | first :: names, h => by
    rw [map_cons, evalAll, eval, h first mem_cons_self,
      evalAll_vars fun n hn => h n (mem_cons_of_mem _ hn)]
    simp

/-- **The call can stand for the expression** in an environment: the name is the new function's, every variable has
a value, and no early return leaves the expression. -/
structure Language.Stands (language : Language M V) (name : String) (function : V) (e : CExpr) (env : Env V) :
    Prop where
  named : env name = some function
  bound : ∀ n ∈ freeVars e, (env n).isSome
  stays : language.scope (language.eval env e) = language.eval env e

end Extracting

/-- A language whose functions are all 1. -/
def onesLanguage : Language Option PlainValue := { plainLanguage with
  apply := fun f _ =>
    match f with
    | .closure => some (.lit (.int 1))
    | _ => none }

/-- The literal 1, a function of some parameters, with a call of `g` in its place. -/
theorem extractFunction_one (params : List (String × TypeExpr)) (hparse : parseNodeId id = .ok [params.length + 1]) :
    extractFunction (fun text => text) (.fnDecl { constantOne with params }) id ⟨"g", [], [], .named "Int" [], []⟩ =
      .ok (.fnDecl { constantOne with params, body := .call (.var "g") [] },
        .fnDecl { constantOne with name := "g" }) := by
  simp [extractFunction, targetOf, hparse, constantOne, navigateToExpr, Place.here, Except.map, freeVars]

end LexLang.Ast
